import ShuffleBuffer.Proofs.Mirrors
import ShuffleBuffer.Proofs.Prefixes
import ShuffleBuffer.Writer

/-! # One writer and two executors

The same writer calls two executors that agree on what is its own: the file and the registration of
its block, the codec and the options of its estimates. Then both calls answer the same and leave
twins again. What all writers move together is the pool, the replacements and the counts. Openings
and writes count what they do and look at none of it; a close looks at the pool. -/

namespace ShuffleBuffer

open Estimate Step

variable {σ α β : Type}

namespace Estimate

/-- Two estimators of the same options, whatever each of them has estimated before. -/
structure SizeEstimator.Matched (e e' : SizeEstimator) : Prop where
  usable : e.Usable
  usable' : e'.Usable
  options : e'.options = e.options

variable {e e' f f' : SizeEstimator}

theorem SizeEstimator.Matched.after (h : e.Matched e')
    (hf : f = e ∨ ∃ g root, f = (e.estimate g root).2)
    (hf' : f' = e' ∨ ∃ g root, f' = (e'.estimate g root).2) : f.Matched f' := by
  have hstep : ∀ {e f : SizeEstimator}, e.Usable → f = e ∨ (∃ g root, f = (e.estimate g root).2) →
      f.Usable ∧ f.options = e.options := by
    rintro e f he (rfl | ⟨g, root, rfl⟩)
    · exact ⟨he, rfl⟩
    · exact ⟨he.estimate g root, rfl⟩
  obtain ⟨husable, hoptions⟩ := hstep h.usable hf
  obtain ⟨husable', hoptions'⟩ := hstep h.usable' hf'
  exact ⟨husable, husable', hoptions'.trans (h.options.trans hoptions.symm)⟩

theorem SizeEstimator.Matched.symm (h : e.Matched e') : e'.Matched e :=
  ⟨h.usable', h.usable, h.options.symm⟩

theorem SizeEstimator.Matched.trans (h : e.Matched e') (h' : e'.Matched f) : e.Matched f :=
  ⟨h.usable, h'.usable', h'.options.trans h.options⟩

namespace Tracker

variable [Measured α]

theorem takeSample_congr (t : Tracker α) (h : e.Matched e') :
    (t.takeSample e').1 = (t.takeSample e).1 ∧ (t.takeSample e').2.1 = (t.takeSample e).2.1 := by
  have hestimate : ∀ t : Tracker α, (t.fullEstimate e').1 = (t.fullEstimate e).1 := fun t =>
    SizeEstimator.estimate_congr h.usable h.usable' h.options _ _
  have hsame := hestimate { t with nextSampleAt := checkpointAfter t.growthRate t.updates }
  unfold takeSample
  dsimp only
  generalize fullEstimate (α := α) _ e = full at hsame ⊢
  generalize fullEstimate (α := α) _ e' = full' at hsame ⊢
  obtain ⟨result, f⟩ := full
  obtain ⟨result', f'⟩ := full'
  dsimp only at hsame
  subst hsame
  cases result' with
  | ok bytes => exact ⟨rfl, rfl⟩
  | error fault => exact ⟨rfl, rfl⟩

theorem make_congr (o : TrackerOptions) (h : e.Matched e') :
    (Tracker.make (α := α) o e').1 = (Tracker.make o e).1 := by
  obtain ⟨hresult, htracker⟩ := takeSample_congr (blank (α := α) o.growthRate []) h
  unfold make
  cases o.validate with
  | error fault => rfl
  | ok _ =>
    generalize takeSample (α := α) _ e = sample at hresult htracker ⊢
    generalize takeSample (α := α) _ e' = sample' at hresult htracker ⊢
    obtain ⟨result, t, f⟩ := sample
    obtain ⟨result', t', f'⟩ := sample'
    dsimp only at hresult htracker
    subst hresult htracker
    cases result' with
    | ok _ => rfl
    | error fault => rfl

theorem append_congr (t : Tracker α) (x : α) (h : e.Matched e') :
    (t.append e' x).1 = (t.append e x).1 ∧ (t.append e' x).2.1 = (t.append e x).2.1 := by
  unfold append
  dsimp only
  split
  · exact takeSample_congr _ h
  · exact ⟨rfl, rfl⟩

theorem takeElements_congr (t : Tracker α) (h : e.Matched e') :
    (t.takeElements e').1 = (t.takeElements e).1 := by
  obtain ⟨hresult, -⟩ := takeSample_congr (blank (α := α) t.growthRate t.shared) h
  rw [takeElements, takeElements, clear, clear]
  dsimp only
  rw [hresult]

theorem takeElements_estimator (t : Tracker α) (e : SizeEstimator) :
    ∃ g root, (t.takeElements e).2.2 = (e.estimate g root).2 := by
  obtain ⟨g, root, hestimate⟩ := takeSample_estimator (blank (α := α) t.growthRate t.shared) e
  refine ⟨g, root, ?_⟩
  rw [takeElements, clear, hestimate]

end Tracker

end Estimate

/-! ## What all writers move together -/

namespace Metrics

/-- Each counter, with that of `δ` on top. -/
def plus (m δ : Metrics) : Metrics where
  admissionsGranted := m.admissionsGranted + δ.admissionsGranted
  admissionsDenied := m.admissionsDenied + δ.admissionsDenied
  bytesAdmitted := m.bytesAdmitted + δ.bytesAdmitted
  bytesSpilled := m.bytesSpilled + δ.bytesSpilled
  memoryCommits := m.memoryCommits + δ.memoryCommits
  fileCommits := m.fileCommits + δ.fileCommits
  committedBytes := m.committedBytes + δ.committedBytes
  duplicatesOmitted := m.duplicatesOmitted + δ.duplicatesOmitted
  trackerSamples := m.trackerSamples + δ.trackerSamples

/-- Counting that adds the same to counters of any height. -/
def Additive (f : Metrics → Metrics) : Prop := ∀ m δ, f (m.plus δ) = (f m).plus δ

theorem additive_admissionGranted (bytes : UInt64) : Additive (admissionGranted · bytes) :=
  fun m δ => by simp only [plus, admissionGranted, Metrics.mk.injEq, true_and]; constructor <;> ac_rfl

theorem additive_admissionDenied (bytes : UInt64) : Additive (admissionDenied · bytes) :=
  fun m δ => by simp only [plus, admissionDenied, Metrics.mk.injEq, true_and]; constructor <;> ac_rfl

theorem additive_blockCommitted (store : StoreKind) (bytes : Option UInt64) :
    Additive (blockCommitted · store bytes) := by
  intro m δ
  unfold blockCommitted
  split <;> simp [plus, add_right_comm]

theorem additive_duplicateOmitted : Additive duplicateOmitted := fun m δ => by
  simp [plus, duplicateOmitted, add_right_comm]

theorem additive_trackerSampled : Additive trackerSampled := fun m δ => by
  simp [plus, trackerSampled, add_right_comm]

end Metrics

/-- The part of an executor that no writer has for itself. -/
structure Shared where
  pool : Pool
  replacements : List Replacement
  created : UInt64
  metrics : Metrics

def Executor.shared (e : Executor α) : Shared :=
  ⟨e.pool, e.registry.replacements, e.registry.created, e.metrics⟩

/-- A relation of shared parts that counting on both sides keeps. -/
structure Shared.Counts (G : Shared → Shared → Prop) : Prop where
  created : ∀ {g g'}, G g g' →
    G { g with created := g.created + 1 } { g' with created := g'.created + 1 }
  counted : ∀ {g g'} {f : Metrics → Metrics}, Metrics.Additive f → G g g' →
    G { g with metrics := f g.metrics } { g' with metrics := f g'.metrics }

/-- A relation of shared parts with the same pool, which settling on both sides keeps. -/
structure Shared.Settles (G : Shared → Shared → Prop) : Prop extends Shared.Counts G where
  pool : ∀ {g g'}, G g g' → g'.pool = g.pool
  moved : ∀ {g g'} (pool : Pool), G g g' → G { g with pool } { g' with pool }
  replaced : ∀ {g g'} (r : Replacement), G g g' →
    G { g with replacements := g.replacements ++ [r] }
      { g' with replacements := g'.replacements ++ [r] }

/-! ## Executors -/

namespace Executor

/-- Two executors that agree on what concerns the block of this name. -/
structure Twin (G : Shared → Shared → Prop) (id : BlockId) (held held' : Option FileId)
    (e e' : Executor α) : Prop where
  medium : Medium.Twin (Block.fileName id) held held' e.registry.medium e'.registry.medium
  entry : Option.Rel (fun r r' => r'.info = r.info ∧ r.block.Alike r'.block)
    (e.registry.entry? id) (e'.registry.entry? id)
  tracker : e'.tracker = e.tracker
  estimator : e.estimator.Matched e'.estimator
  shared : G e.shared e'.shared

variable {G : Shared → Shared → Prop} {id : BlockId} {held held' k k' l l' : Option FileId}
  {e e' : Executor α} {b b' : Block α}

theorem Twin.letGo (h : Twin G id held held' e e') : Twin G id none none e e' :=
  { h with medium := h.medium.letGo }

/-- The shared parts may be related in another way, too. -/
theorem Twin.sharing {G' : Shared → Shared → Prop} (h : Twin G id held held' e e')
    (hG : G' e.shared e'.shared) : Twin G' id held held' e e' := { h with shared := hG }

theorem Twin.symm (h : Twin G id held held' e e') :
    Twin (fun g g' => G g' g) id held' held e' e := by
  refine ⟨h.medium.symm, ?_, h.tracker.symm, h.estimator.symm, h.shared⟩
  have hentry := h.entry
  generalize e.registry.entry? id = r at hentry ⊢
  generalize e'.registry.entry? id = r' at hentry ⊢
  cases hentry with
  | none => exact .none
  | some hsame => exact .some ⟨hsame.1.symm, hsame.2.symm⟩

theorem Twin.trans {G' : Shared → Shared → Prop} {e'' : Executor α} {held'' : Option FileId}
    (h : Twin G id held held' e e') (h' : Twin G' id held' held'' e' e'') :
    Twin (fun _ _ => True) id held held'' e e'' := by
  refine ⟨h.medium.trans h'.medium, ?_, h'.tracker.trans h.tracker, h.estimator.trans h'.estimator,
    trivial⟩
  have hentry := h.entry
  have hentry' := h'.entry
  generalize e.registry.entry? id = r at hentry ⊢
  generalize e'.registry.entry? id = r' at hentry hentry'
  generalize e''.registry.entry? id = r'' at hentry' ⊢
  cases hentry with
  | none => exact hentry'
  | some hsame =>
    cases hentry' with
    | some hsame' => exact .some ⟨hsame'.1.trans hsame.1, hsame.2.trans hsame'.2⟩

theorem Twin.onMedium (h : Twin G id held held' e e') {m m' : Medium α}
    (hm : Medium.Twin (Block.fileName id) k k' m m') :
    Twin G id k k' { e with registry := { e.registry with medium := m } }
      { e' with registry := { e'.registry with medium := m' } } :=
  { h with medium := hm }

theorem Twin.info (h : Twin G id held held' e e') :
    e'.registry.info? id = e.registry.info? id := by
  have hentry := h.entry
  rw [Registry.info?, Registry.info?]
  generalize e.registry.entry? id = r at hentry ⊢
  generalize e'.registry.entry? id = r' at hentry ⊢
  cases hentry with
  | none => rfl
  | some hsame => exact congrArg some hsame.1

/-- What is asked of the medium is mirrored on the executors. -/
theorem asked_mirrors {C : β → β → Prop} (request request' : Request) {x x' : Step (Medium α) β}
    (hx : Mirrors (Medium.Twin (Block.fileName id) held held') x x'
      (fun a a' m m' => C a a' ∧ Medium.Twin (Block.fileName id) k k' m m')
      (Medium.Twin (Block.fileName id) l l')) :
    Mirrors (Twin G id held held') (ask request (onMedium x)) (ask request' (onMedium x'))
      (fun a a' e e' => C a a' ∧ Twin G id k k' e e') (Twin G id l l') := by
  refine Mirrors.bind (Q := fun _ _ => Twin G id held held')
    (Mirrors.modify fun _ _ h => { h with }) fun _ _ e e' h => ?_
  have hstep := hx _ _ h.medium
  simp only [Executor.onMedium, onRegistry, Registry.onMedium, within]
  generalize x e.registry.medium = outcome at hstep ⊢
  generalize x' e'.registry.medium = outcome' at hstep ⊢
  cases hstep with
  | ok ha => exact .ok ⟨ha.1, h.onMedium ha.2⟩
  | error hm => exact .error (h.onMedium hm)

theorem write_mirrors (h : b.Alike b') (hid : b.id = id) (key : PartitionKey) (x : α) :
    Mirrors (Twin G id b.held b'.held) (write b key x) (write b' key x)
      (fun c c' e e' => Block.Changes b b' c c' ∧ Twin G id b.held b'.held e e')
      (Twin G id b.held b'.held) := by
  subst hid
  exact asked_mirrors _ _ (Block.write_mirrors h key x)

theorem commitPartitions_mirrors (h : b.Alike b') (hid : b.id = id) :
    Mirrors (Twin G id b.held b'.held) (commitPartitions b) (commitPartitions b')
      (fun c c' e e' => Block.Changes b b' c c' ∧ Twin G id b.held b'.held e e')
      (Twin G id b.held b'.held) := by
  subst hid
  exact asked_mirrors _ _ (Block.commitPartitions_mirrors h)

theorem commit_mirrors (h : b.Alike b') (hid : b.id = id) :
    Mirrors (Twin G id b.held b'.held) (commit b) (commit b')
      (fun r r' e e' => (r'.1 = r.1 ∧ r'.2.result = r.2.result ∧
        r.2.block.Alike r'.2.block ∧ r.2.block.id = b.id) ∧
        Twin G id b.held b'.held e e')
      (Twin G id b.held b'.held) := by
  subst hid
  exact asked_mirrors _ _ (Block.commit_mirrors h)

theorem spill_mirrors (h : b.Alike b') (hid : b.id = id) :
    Mirrors (Twin G id b.held b'.held) (spill b) (spill b') (fun _ _ => Twin G id none none)
      (Twin G id none none) := by
  subst hid
  refine Mirrors.weaken (asked_mirrors (C := fun _ _ => True) _ _
    (Mirrors.weaken (Block.spill_mirrors h) (fun _ _ h => h) (fun _ _ _ _ h => ⟨trivial, h⟩)
      fun _ _ h => h)) (fun _ _ h => h) (fun _ _ _ _ h => h.2) fun _ _ h => h

theorem Twin.release (h : b.Alike b') (hid : b.id = id)
    (htwin : Twin G id b.held b'.held e e') :
    Twin G id b.held b'.held (e.release b) (e'.release b') := by
  subst hid
  exact htwin.onMedium (Block.release_around h htwin.medium)

theorem createBlock_mirrors (hG : Shared.Counts G) (id : BlockId) (store : StoreKind) :
    Mirrors (Twin (α := α) G id none none) (createBlock id store) (createBlock id store)
      (fun b b' e e' => (b.Alike b' ∧ b.id = id) ∧ Twin G id b.held b'.held e e')
      (Twin G id none none) := by
  refine Mirrors.bind (Q := fun _ _ => Twin G id none none)
    (Mirrors.modify fun _ _ h => { h with }) fun _ _ e e' h => ?_
  -- whatever has become of the medium, one more block is counted
  have hcounted : ∀ {held held' : Option FileId} {m m' : Medium α},
      Medium.Twin (Block.fileName id) held held' m m' →
      Twin G id held held'
        { e with registry := { e.registry with medium := m, created := e.registry.created + 1 } }
        { e' with registry :=
          { e'.registry with medium := m', created := e'.registry.created + 1 } } :=
    fun hm => { h with medium := hm, shared := hG.created h.shared }
  have hmemory : ∀ b : Block α, b.id = id → b.held = none → (b.Alike b ∧ b.id = id) ∧
      Twin G id b.held b.held
        { e with registry := { e.registry with created := e.registry.created + 1 } }
        { e' with registry := { e'.registry with created := e'.registry.created + 1 } } := by
    intro b hid hnone
    rw [hnone]
    exact ⟨⟨.refl b, hid⟩, hcounted h.medium⟩
  cases store with
  | memory | memoryFile | serializedMemory | serializedMemoryFile =>
    exact .ok (hmemory _ rfl rfl)
  | localFile =>
    have hmade := Block.ofFile_mirrors (α := α) id .localFile _ _ h.medium
    simp only [onRegistry, Registry.createBlock, Registry.onMedium, within, bind_apply]
    generalize Block.ofFile id .localFile e.registry.medium = outcome at hmade ⊢
    generalize Block.ofFile id .localFile e'.registry.medium = outcome' at hmade ⊢
    cases hmade with
    | ok hb =>
      obtain ⟨⟨halike, hid⟩, hm⟩ := hb
      subst hid
      exact .ok ⟨⟨halike, rfl⟩, hcounted hm⟩
    | error hm => exact .error (h.onMedium hm)

theorem register_mirrors (h : b.Alike b') (hid : b.id = id) (store : StoreKind) (reads : UInt32)
    (persistence : Persistence) :
    Mirrors (Twin G id held held') (register b store reads persistence)
      (register b' store reads persistence) (fun _ _ => Twin G id held held')
      (Twin G id held held') := by
  subst hid
  refine Mirrors.bind (Q := fun _ _ => Twin G b.id held held')
    (Mirrors.modify fun _ _ h => { h with }) fun _ _ => Mirrors.within fun e e' htwin => ?_
  have hrequire : b'.require .register .committed = b.require .register .committed := by
    rw [Block.require, Block.require, h.id, h.state]
  simp only [Registry.register, bind_apply, Step.ofExcept, hrequire]
  cases b.require .register .committed with
  | error fault => exact .error { htwin with }
  | ok _ =>
    refine .ok { htwin with entry := ?_ }
    show Option.Rel _ (List.lookup b.id _) (List.lookup b.id _)
    simp only [h.id, h.location, List.lookup_cons_self]
    exact .some ⟨rfl, h⟩

theorem putSpilled_mirrors (hG : Shared.Settles G) (source target : StoreKind) :
    Mirrors (Twin (α := α) G id held held') (putSpilled id source target)
      (putSpilled id source target) (fun _ _ => Twin G id held held') (Twin G id held held') := by
  refine Mirrors.bind (Q := fun _ _ => Twin G id held held')
    (Mirrors.modify fun _ _ h => { h with }) fun _ _ => Mirrors.within fun e e' htwin => ?_
  unfold Registry.putSpilled
  rw [htwin.info]
  split
  · exact .ok { htwin with shared := hG.replaced _ htwin.shared }
  · exact .error { htwin with }

/-- Both pools are moved in the same way. -/
theorem Twin.moved (hG : Shared.Settles G) (h : Twin G id held held' e e') (f : Pool → Pool) :
    Twin G id held held' { e with pool := f e.pool } { e' with pool := f e'.pool } := by
  have hpool : e'.pool = e.pool := hG.pool h.shared
  rw [hpool]
  exact { h with shared := hG.moved _ h.shared }

theorem count_mirrors (hG : Shared.Counts G) {f : Metrics → Metrics} (hf : Metrics.Additive f) :
    Mirrors (Twin (α := α) G id held held') (count f) (count f) (fun _ _ => Twin G id held held')
      (Twin G id held held') :=
  Mirrors.modify fun _ _ h => { h with shared := hG.counted hf h.shared }

end Executor

/-! ## Writers -/

namespace Writer

open Executor

variable {G : Shared → Shared → Prop} {id : BlockId} {held held' k k' l l' : Option FileId}
  {b b' : Block α}

section Buffer

variable [Measured α]

theorem makeTracker_mirrors :
    Mirrors (Executor.Twin G id held held') (makeTracker (α := α)) makeTracker
      (fun t t' e e' => t' = t ∧ Executor.Twin G id held held' e e')
      (Executor.Twin G id held held') := by
  intro e e' h
  have hsame := Tracker.make_congr (α := α) e.tracker h.estimator
  have hmatched := h.estimator.after (Tracker.make_estimator (α := α) e.tracker e.estimator)
    (Tracker.make_estimator (α := α) e.tracker e'.estimator)
  unfold makeTracker
  rw [h.tracker]
  generalize Tracker.make (α := α) e.tracker e.estimator = made at hsame hmatched ⊢
  generalize Tracker.make (α := α) e.tracker e'.estimator = made' at hsame hmatched ⊢
  obtain ⟨result, f⟩ := made
  obtain ⟨result', f'⟩ := made'
  dsimp only at hsame hmatched
  subst hsame
  cases result' with
  | ok t => exact .ok ⟨rfl, { h with tracker := rfl, estimator := hmatched }⟩
  | error fault => exact .error { h with tracker := rfl, estimator := hmatched }

theorem takeElements_mirrors (t : Tracker α) :
    Mirrors (Executor.Twin G id held held') (takeElements t) (takeElements t)
      (fun xs xs' e e' => xs' = xs ∧ Executor.Twin G id held held' e e')
      (Executor.Twin G id held held') := by
  intro e e' h
  have hsame := t.takeElements_congr h.estimator
  have hmatched := h.estimator.after (.inr (t.takeElements_estimator e.estimator))
    (.inr (t.takeElements_estimator e'.estimator))
  unfold takeElements
  generalize t.takeElements e.estimator = taken at hsame hmatched ⊢
  generalize t.takeElements e'.estimator = taken' at hsame hmatched ⊢
  obtain ⟨result, rest, f⟩ := taken
  obtain ⟨result', rest', f'⟩ := taken'
  dsimp only at hsame hmatched
  subst hsame
  cases result' with
  | ok xs => exact .ok ⟨rfl, { h with estimator := hmatched }⟩
  | error fault => exact .error { h with estimator := hmatched }

end Buffer

theorem put_mirrors (h : b.Alike b') (hid : b.id = id) (key : PartitionKey) (x : α)
    (dedicated : Bool) :
    Mirrors (Executor.Twin G id b.held b'.held) (put b key x dedicated) (put b' key x dedicated)
      (fun c c' e e' => Block.Changes b b' c c' ∧ Executor.Twin G id b.held b'.held e e')
      (Executor.Twin G id b.held b'.held) := by
  refine Mirrors.bind (write_mirrors h hid key x) fun c c' => Mirrors.given fun hc => ?_
  rw [hc.result]
  split
  · refine Mirrors.ite ?_ (Mirrors.pure fun _ _ htwin => ⟨hc, htwin⟩)
    have hcommit := commitPartitions_mirrors (G := G) hc.alike (hc.id.trans hid)
    rw [hc.held, hc.held'] at hcommit
    refine Mirrors.weaken hcommit (fun _ _ h => h) (fun d d' _ _ hd => ⟨?_, hd.2⟩) fun _ _ h => h
    exact ⟨hc.toLater.trans hd.1.toLater, hd.1.result⟩
  · exact Mirrors.pure fun _ _ htwin => ⟨hc, htwin⟩

theorem putAll_mirrors (xs : List α) (q : Partitioner σ α) (h : b.Alike b') (hid : b.id = id) :
    Mirrors (Executor.Twin G id b.held b'.held) (putAll xs q b) (putAll xs q b')
      (fun c c' e e' => Block.Later b b' c c' ∧ Executor.Twin G id b.held b'.held e e')
      (Executor.Twin G id b.held b'.held) := by
  induction xs generalizing q b b' with
  | nil => exact Mirrors.pure fun _ _ htwin => ⟨⟨h, rfl, rfl, rfl⟩, htwin⟩
  | cons x xs ih =>
    refine Mirrors.bind (Mirrors.onFault (Mirrors.weaken (put_mirrors h hid _ _ _)
      (fun _ _ h => h) (fun _ _ _ _ h => h) fun _ _ htwin => htwin.release h hid))
      fun c c' => Mirrors.given fun hc => ?_
    have hid' := hc.id.trans hid
    have hrest := ih (q.next x).2 hc.alike hid'
    have hrelease := fun (e e' : Executor α)
      (htwin : Executor.Twin G id c.block.held c'.block.held e e') => htwin.release hc.alike hid'
    rw [hc.held, hc.held'] at hrest hrelease
    rw [hc.result]
    refine Mirrors.bind (Q := fun _ _ => Executor.Twin G id b.held b'.held)
      (Mirrors.onFault (Mirrors.ofExcept (fun _ _ _ h => h) hrelease))
      fun _ _ => ?_
    exact Mirrors.weaken hrest (fun _ _ h => h) (fun d d' _ _ hd => ⟨hc.toLater.trans hd.1, hd.2⟩)
      fun _ _ h => h

/-- The same writer on a block of this name, which lives in two places. -/
structure Twin (G : Shared → Shared → Prop) (id : BlockId) (s s' : Writer σ α × Executor α) :
    Prop where
  named : s.1.id = id
  same : s'.1 = { s.1 with block := s'.1.block }
  block : Option.Rel (fun b b' => b.Alike b' ∧ b.id = id) s.1.block s'.1.block
  executor : Executor.Twin G id (s.1.block.bind Block.held) (s'.1.block.bind Block.held) s.2 s'.2

theorem Twin.symm {s s' : Writer σ α × Executor α} (h : Twin G id s s') :
    Twin (fun g g' => G g' g) id s' s := by
  obtain ⟨w, e⟩ := s
  obtain ⟨w', e'⟩ := s'
  obtain ⟨hnamed, hsame, hblock, hexecutor⟩ := h
  obtain ⟨block', rfl⟩ : ∃ block', w' = { w with block := block' } := ⟨_, hsame⟩
  refine ⟨hnamed, rfl, ?_, hexecutor.symm⟩
  dsimp only at hblock ⊢
  generalize w.block = block at hblock ⊢
  cases hblock with
  | none => exact .none
  | some hb => exact .some ⟨hb.1.symm, hb.1.id.trans hb.2⟩

theorem Twin.trans {G' : Shared → Shared → Prop} {s s' s'' : Writer σ α × Executor α}
    (h : Twin G id s s') (h' : Twin G' id s' s'') : Twin (fun _ _ => True) id s s'' := by
  refine ⟨h.named, ?_, ?_, h.executor.trans h'.executor⟩
  · have hsame := h'.same
    rw [h.same] at hsame
    exact hsame
  · have hblock := h.block
    have hblock' := h'.block
    generalize s.1.block = block at hblock ⊢
    generalize s'.1.block = block' at hblock hblock'
    generalize s''.1.block = block'' at hblock' ⊢
    cases hblock with
    | none => exact hblock'
    | some hb =>
      cases hblock' with
      | some hb' => exact .some ⟨hb.1.trans hb'.1, hb.2⟩

/-- The same writer next to two executors. It has given up its block, which may still have a file
open. -/
structure Abreast (G : Shared → Shared → Prop) (id : BlockId) (held held' : Option FileId)
    (s s' : Writer σ α × Executor α) : Prop where
  named : s.1.id = id
  block : s.1.block = none
  writer : s'.1 = s.1
  executor : Executor.Twin G id held held' s.2 s'.2

theorem Abreast.letGo {s s' : Writer σ α × Executor α} (h : Abreast G id held held' s s') :
    Abreast G id none none s s' := { h with executor := h.executor.letGo }

theorem Abreast.twin {s s' : Writer σ α × Executor α} (h : Abreast G id held held' s s') :
    Twin G id s s' := by
  obtain ⟨w, e⟩ := s
  obtain ⟨_, e'⟩ := s'
  obtain ⟨hnamed, hblock, rfl, hexecutor⟩ := h
  refine ⟨hnamed, rfl, ?_, ?_⟩
  · rw [hblock]
    exact .none
  · rw [hblock]
    exact hexecutor.letGo

theorem make_mirrors [Measured α] (hG : Shared.Counts G) (task : TaskId) (edge : Edge)
    (destination : Destination) (q : Partitioner σ α) :
    Mirrors (Executor.Twin G (.of edge.id task) none none) (make task edge destination q)
      (make task edge destination q)
      (fun w w' e e' => Twin G (.of edge.id task) (w, e) (w', e'))
      (Executor.Twin G (.of edge.id task) none none) := by
  refine Mirrors.ofExcept_bind (fun store => Mirrors.ite ?_ ?_) fun _ _ h => h
  · exact Mirrors.bind (count_mirrors hG Metrics.additive_duplicateOmitted) fun _ _ =>
      Mirrors.pure fun _ _ h => ⟨rfl, rfl, .none, h⟩
  · refine Mirrors.bind (createBlock_mirrors hG _ store) fun b b' => Mirrors.given fun hb => ?_
    have hrest : ∀ t t' : Option (Tracker α), Mirrors
        (fun e e' => t' = t ∧ Executor.Twin G (.of edge.id task) b.held b'.held e e')
        (pure { edge, destination, partitioner := q, id := .of edge.id task, store := store,
                block := some b, tracker := t })
        (pure { edge, destination, partitioner := q, id := .of edge.id task, store := store,
                block := some b', tracker := t' })
        (fun w w' e e' => Twin G (.of edge.id task) (w, e) (w', e'))
        (Executor.Twin G (.of edge.id task) none none) := by
      refine fun t t' => Mirrors.given ?_
      rintro rfl
      exact Mirrors.pure fun _ _ h => ⟨rfl, rfl, .some hb, h⟩
    refine Mirrors.ite (Mirrors.bind (Mirrors.map ?_) hrest)
      (Mirrors.bind (Mirrors.pure fun _ _ h => ⟨rfl, h⟩) hrest)
    exact Mirrors.weaken makeTracker_mirrors (fun _ _ h => h)
      (fun _ _ _ _ h => ⟨congrArg some h.1, h.2⟩) fun _ _ h => h.letGo

/-- Whatever the executors do, the writers next to them are as they were. -/
theorem onExecutor_beside {P E : Executor α → Executor α → Prop}
    {Q : β → β → Executor α → Executor α → Prop} {x x' : Step (Executor α) β}
    (hx : Mirrors P x x' Q E) (w w' : Writer σ α) :
    Mirrors (fun s s' => (s.1 = w ∧ s'.1 = w') ∧ P s.2 s'.2) (onExecutor x) (onExecutor x')
      (fun a a' s s' => (s.1 = w ∧ s'.1 = w') ∧ Q a a' s.2 s'.2)
      fun s s' => (s.1 = w ∧ s'.1 = w') ∧ E s.2 s'.2 := by
  rintro ⟨_, e⟩ ⟨_, e'⟩ ⟨⟨rfl, rfl⟩, h⟩
  have hstep := hx e e' h
  simp only [onExecutor, within]
  generalize x e = outcome at hstep ⊢
  generalize x' e' = outcome' at hstep ⊢
  cases hstep with
  | ok ha => exact .ok ⟨⟨rfl, rfl⟩, ha⟩
  | error he => exact .error ⟨⟨rfl, rfl⟩, he⟩

theorem onExecutor_mirrors {C : β → β → Prop} {k k' : β → Option FileId}
    {x x' : Step (Executor α) β}
    (hx : Mirrors (Executor.Twin G id held held') x x'
      (fun a a' e e' => C a a' ∧ Executor.Twin G id (k a) (k' a') e e')
      (Executor.Twin G id l l')) :
    Mirrors (Abreast (σ := σ) G id held held') (onExecutor x) (onExecutor x')
      (fun a a' s s' => C a a' ∧ Abreast G id (k a) (k' a') s s') (Abreast G id none none) := by
  intro s s' h
  have hkept : ∀ {t t' : Writer σ α × Executor α} {n n' : Option FileId},
      t.1 = s.1 ∧ t'.1 = s.1 → Executor.Twin G id n n' t.2 t'.2 → Abreast G id n n' t t' :=
    fun ht htwin => ⟨ht.1 ▸ h.named, ht.1 ▸ h.block, ht.2.trans ht.1.symm, htwin⟩
  exact Mirrors.weaken (onExecutor_beside hx s.1 s.1) (fun _ _ h => h)
    (fun _ _ _ _ ha => ⟨ha.2.1, hkept ha.1 ha.2.2⟩) (fun _ _ he => hkept he.1 he.2.letGo) s s'
    ⟨⟨rfl, h.writer⟩, h.executor⟩

theorem onExecutor_mirrors' {x x' : Step (Executor α) β}
    (hx : Mirrors (Executor.Twin G id held held') x x'
      (fun _ _ => Executor.Twin G id k k') (Executor.Twin G id l l')) :
    Mirrors (Abreast (σ := σ) G id held held') (onExecutor x) (onExecutor x')
      (fun _ _ => Abreast G id k k') (Abreast G id none none) :=
  Mirrors.weaken (onExecutor_mirrors (C := fun _ _ => True)
    (Mirrors.weaken hx (fun _ _ h => h) (fun _ _ _ _ h => ⟨trivial, h⟩) fun _ _ h => h))
    (fun _ _ h => h) (fun _ _ _ _ h => h.2) fun _ _ h => h

theorem update_mirrors {f : Writer σ α → Writer σ α} {E : Writer σ α × Executor α → _ → Prop}
    (hf : ∀ w, (f w).id = w.id ∧ (f w).block = w.block) :
    Mirrors (Abreast G id held held') (update f) (update f) (fun _ _ => Abreast G id held held')
      E :=
  Mirrors.modify fun _ _ h =>
    ⟨(hf _).1.trans h.named, (hf _).2.trans h.block, congrArg f h.writer, h.executor⟩

theorem commit_mirrors (hG : Shared.Counts G) (h : b.Alike b') (hid : b.id = id)
    (store : StoreKind) (reads : UInt32) (persistence : Persistence) :
    Mirrors (Abreast (σ := σ) G id b.held b'.held) (commit b store reads persistence)
      (commit b' store reads persistence) (fun _ _ => Abreast G id b.held b'.held)
      (Abreast G id none none) := by
  refine Mirrors.bind (onExecutor_mirrors (Executor.commit_mirrors h hid)) fun r r' =>
    Mirrors.given ?_
  obtain ⟨sizes, c, result⟩ := r
  obtain ⟨_, c', _⟩ := r'
  rintro ⟨rfl, rfl, halike, hsame⟩
  refine Mirrors.ofExcept_bind (fun _ => ?_) fun _ _ h => h.letGo
  refine Mirrors.bind (update_mirrors fun _ => ⟨rfl, rfl⟩) fun _ _ => ?_
  refine Mirrors.bind (onExecutor_mirrors' (count_mirrors hG
    (Metrics.additive_blockCommitted store _))) fun _ _ => ?_
  refine Mirrors.bind (onExecutor_mirrors' (register_mirrors halike (hsame.trans hid) store reads
    persistence)) fun _ _ => ?_
  exact update_mirrors fun _ => ⟨rfl, rfl⟩

theorem fill_mirrors (hG : Shared.Counts G) (w : Writer σ α) {w' : Writer σ α}
    (hstore : w'.store = w.store) (hpartitioner : w'.partitioner = w.partitioner)
    (h : b.Alike b') (hid : b.id = id) (xs : List α) (reads : UInt32)
    (persistence : Persistence) :
    Mirrors (Abreast (σ := σ) G id b.held b'.held) (fill w b xs reads persistence)
      (fill w' b' xs reads persistence) (fun _ _ => Abreast G id none none)
      (Abreast G id none none) := by
  unfold fill
  rw [hstore, hpartitioner]
  refine Mirrors.bind (onExecutor_mirrors (putAll_mirrors xs _ h hid)) fun c c' =>
    Mirrors.given fun hc => ?_
  have hcommit := commit_mirrors (σ := σ) hG hc.alike (hc.id.trans hid) w.store reads persistence
  rw [hc.held, hc.held'] at hcommit
  exact Mirrors.weaken hcommit (fun _ _ h => h) (fun _ _ _ _ h => h.letGo)
    fun _ _ h => h

theorem spill_mirrors (hG : Shared.Settles G) (w : Writer σ α) {w' : Writer σ α}
    (hstore : w'.store = w.store) (hpartitioner : w'.partitioner = w.partitioner)
    (hw : w.id = id) (hw' : w'.id = id) (h : b.Alike b') (hid : b.id = id) (xs : List α)
    (reads : UInt32) (persistence : Persistence) :
    Mirrors (Abreast (σ := σ) G id b.held b'.held) (spill w b xs reads persistence)
      (spill w' b' xs reads persistence) (fun _ _ => Abreast G id none none)
      (Abreast G id none none) := by
  unfold spill
  rw [hstore, hpartitioner, hw, hw']
  refine Mirrors.bind (onExecutor_mirrors' (Executor.spill_mirrors h hid)) fun _ _ => ?_
  refine Mirrors.bind (onExecutor_mirrors (createBlock_mirrors hG.toCounts id .localFile))
    fun c c' => Mirrors.given fun hc => ?_
  refine Mirrors.bind (onExecutor_mirrors (putAll_mirrors xs _ hc.1 hc.2)) fun d d' =>
    Mirrors.given fun hd => ?_
  have hcommit := commit_mirrors (σ := σ) hG.toCounts hd.alike (hd.id.trans hc.2) .localFile reads
    persistence
  rw [hd.held, hd.held'] at hcommit
  refine Mirrors.bind hcommit fun _ _ => ?_
  refine Mirrors.bind (onExecutor_mirrors' (putSpilled_mirrors hG w.store .localFile)) fun _ _ => ?_
  exact Mirrors.weaken (update_mirrors fun _ => ⟨rfl, rfl⟩) (fun _ _ h => h)
    (fun _ _ _ _ h => h.letGo) fun _ _ h => h

-- Or else its body is opened over and over to see what a step answers.
attribute [local irreducible] takeElements

theorem settle_mirrors [Measured α] (hG : Shared.Settles G) (w : Writer σ α) {w' : Writer σ α}
    (hstore : w'.store = w.store) (hpartitioner : w'.partitioner = w.partitioner)
    (hw : w.id = id) (hw' : w'.id = id) (h : b.Alike b') (hid : b.id = id) (tracker : Tracker α)
    (reads : UInt32) (persistence : Persistence) :
    Mirrors (Abreast (σ := σ) G id b.held b'.held) (settle w b tracker reads persistence)
      (settle w' b' tracker reads persistence) (fun _ _ => Abreast G id none none)
      (Abreast G id none none) := by
  unfold settle
  rw [hw, hw']
  refine Mirrors.bind (onExecutor_mirrors (takeElements_mirrors tracker)) fun xs xs' =>
    Mirrors.given ?_
  rintro rfl
  have hoffer : Mirrors (Executor.Twin G id b.held b'.held)
      (fun e => (.ok (e.pool.reserve id tracker.estimateSize).1,
        { e with pool := (e.pool.reserve id tracker.estimateSize).2 }))
      (fun e => (.ok (e.pool.reserve id tracker.estimateSize).1,
        { e with pool := (e.pool.reserve id tracker.estimateSize).2 }))
      (fun granted granted' e e' => granted' = granted ∧ Executor.Twin G id b.held b'.held e e')
      (Executor.Twin (α := α) G id b.held b'.held) := by
    intro e e' h
    have hpool : e'.pool = e.pool := hG.pool h.shared
    refine .ok ⟨by rw [hpool], h.moved hG fun pool => (pool.reserve id tracker.estimateSize).2⟩
  refine Mirrors.bind (onExecutor_mirrors hoffer) fun granted granted' => Mirrors.given ?_
  rintro rfl
  refine Mirrors.ite ?_ ?_
  · refine Mirrors.bind (onExecutor_mirrors' (count_mirrors hG.toCounts
      (Metrics.additive_admissionGranted _))) fun _ _ => Mirrors.onFault ?_
    refine Mirrors.weaken (fill_mirrors hG.toCounts w hstore hpartitioner h hid xs' reads
      persistence) (fun _ _ h => h) (fun _ _ _ _ h => h) fun s s' hs => ?_
    refine { hs with executor := ?_ }
    show Executor.Twin G id none none
      { s.2 with pool := (s.2.pool.releaseBlock s.1.id).2 }
      { s'.2 with pool := (s'.2.pool.releaseBlock s'.1.id).2 }
    rw [hs.writer]
    exact hs.executor.moved hG fun pool => (pool.releaseBlock s.1.id).2
  · refine Mirrors.bind (onExecutor_mirrors' (count_mirrors hG.toCounts
      (Metrics.additive_admissionDenied _))) fun _ _ => Mirrors.always ?_
    refine Mirrors.weaken (spill_mirrors hG w hstore hpartitioner hw hw' h hid xs' reads
      persistence) (fun _ _ h => h) (fun _ _ _ _ hs => ?_) fun _ _ hs => ?_
    · exact { hs with executor := hs.executor.moved hG (·.release tracker.estimateSize) }
    · exact { hs with executor := hs.executor.moved hG (·.release tracker.estimateSize) }

/-- What a call goes on to do with the writer that it finds. -/
theorem read_mirrors {f : Writer σ α → Step (Writer σ α × Executor α) β}
    {Q : β → β → Writer σ α × Executor α → Writer σ α × Executor α → Prop}
    {E : Writer σ α × Executor α → Writer σ α × Executor α → Prop}
    (h : ∀ (w : Writer σ α) (block' : Option (Block α)), w.id = id →
      Option.Rel (fun b b' => b.Alike b' ∧ b.id = id) w.block block' →
      Mirrors (fun s s' => s.1 = w ∧ s'.1 = { w with block := block' } ∧ Twin G id s s') (f w)
        (f { w with block := block' }) Q E) :
    Mirrors (Twin G id) (Step.read Prod.fst >>= f) (Step.read Prod.fst >>= f) Q E := by
  rintro ⟨w, e⟩ ⟨w', e'⟩ htwin
  have hrest := h w w'.block htwin.named htwin.block (w, e) (w', e') ⟨rfl, htwin.same, htwin⟩
  rw [← htwin.same] at hrest
  exact hrest

theorem close_mirrors [Measured α] (hG : Shared.Settles G) :
    Mirrors (Twin (σ := σ) (α := α) G id) close close (fun _ _ => Twin G id) (Twin G id) := by
  refine read_mirrors fun w block' hnamed hblock => ?_
  obtain ⟨edge, destination, q, _, store, block, tracker, state, written, spilled⟩ := w
  dsimp only at hnamed hblock ⊢
  cases state with
  | noOp => exact Mirrors.pure fun _ _ h => h.2.2
  | committedMemory | committedDisk => exact Mirrors.fail fun _ _ h => h.2.2
  | writing =>
    refine Mirrors.ofExcept_bind (fun persistence => ?_) fun _ _ h => h.2.2
    refine Mirrors.ofExcept_bind (fun reads => ?_) fun _ _ h => h.2.2
    cases hblock with
    | none => exact Mirrors.fail fun _ _ h => h.2.2
    | @some b b' hlike =>
      obtain ⟨halike, hid⟩ := hlike
      refine Mirrors.bind (Q := fun _ _ => Abreast G id b.held b'.held) ?_ fun _ _ => ?_
      · refine Mirrors.modify fun s s' hs => ?_
        obtain ⟨⟨_, e⟩, ⟨_, e'⟩⟩ := s, s'
        obtain ⟨rfl, rfl, htwin⟩ := hs
        exact ⟨hnamed, rfl, rfl, htwin.executor⟩
      · cases tracker with
        | none =>
          exact Mirrors.weaken (commit_mirrors hG.toCounts halike hid _ _ _) (fun _ _ h => h)
            (fun _ _ _ _ h => h.twin) fun _ _ h => h.twin
        | some tracker =>
          exact Mirrors.weaken (settle_mirrors hG _ rfl rfl hnamed hnamed halike hid tracker reads
            persistence) (fun _ _ h => h) (fun _ _ _ _ h => h.twin) fun _ _ h => h.twin

theorem buffer_mirrors [Measured α] (hG : Shared.Counts G) (t : Tracker α) (x : α) :
    Mirrors (Twin (σ := σ) G id) (buffer t x) (buffer t x) (fun _ _ => Twin G id)
      (Twin G id) := by
  rintro ⟨w, e⟩ ⟨w', e'⟩ ⟨hnamed, hsame, hblock, hexecutor⟩
  obtain ⟨hresult, hgrown⟩ := t.append_congr x hexecutor.estimator
  have hmatched := hexecutor.estimator.after (t.append_estimator e.estimator x)
    (t.append_estimator e'.estimator x)
  unfold buffer
  dsimp only
  generalize t.append e.estimator x = grown at hresult hgrown hmatched ⊢
  generalize t.append e'.estimator x = grown' at hresult hgrown hmatched ⊢
  obtain ⟨result, t₁, f⟩ := grown
  obtain ⟨result', t₁', f'⟩ := grown'
  dsimp only at hresult hgrown hmatched ⊢
  subst hresult hgrown
  have htwin : Twin G id
      ({ w with tracker := some t₁' }, { e with
        estimator := f
        metrics := if t.samplesTaken < t₁'.samplesTaken then e.metrics.trackerSampled
          else e.metrics })
      ({ w' with tracker := some t₁' }, { e' with
        estimator := f'
        metrics := if t.samplesTaken < t₁'.samplesTaken then e'.metrics.trackerSampled
          else e'.metrics }) := by
    refine ⟨hnamed, ?_, hblock, { hexecutor with estimator := hmatched, shared := ?_ }⟩
    · dsimp only at hsame ⊢
      rw [hsame]
    · split
      · exact hG.counted Metrics.additive_trackerSampled hexecutor.shared
      · exact hexecutor.shared
  cases result' with
  | ok _ => exact .ok htwin
  | error fault => exact .error htwin

theorem write_mirrors [Measured α] (hG : Shared.Counts G) (x : α) :
    Mirrors (Twin (σ := σ) G id) (write x) (write x) (fun _ _ => Twin G id) (Twin G id) := by
  refine read_mirrors fun w block' hnamed hblock => ?_
  obtain ⟨edge, destination, p, name, store, block, tracker, state, written, spilled⟩ := w
  dsimp only at hnamed hblock ⊢
  cases state with
  | noOp => exact Mirrors.pure fun _ _ h => h.2.2
  | committedMemory | committedDisk => exact Mirrors.fail fun _ _ h => h.2.2
  | writing =>
    cases tracker with
    | some tracker =>
      exact Mirrors.weaken (buffer_mirrors hG tracker x) (fun _ _ h => h.2.2)
        (fun _ _ _ _ h => h) fun _ _ h => h
    | none =>
      cases hblock with
      | none => exact Mirrors.fail fun _ _ h => h.2.2
      | @some b b' hlike =>
        obtain ⟨halike, hid⟩ := hlike
        obtain ⟨key, q⟩ := p.next x
        refine Mirrors.bind (Q := fun _ _ s s' =>
          (s.1 = ⟨edge, destination, q, name, store, some b, none, .writing, written, spilled⟩ ∧
            s'.1 = ⟨edge, destination, q, name, store, some b', none, .writing, written, spilled⟩) ∧
          Executor.Twin G id b.held b'.held s.2 s'.2) (Mirrors.modify fun s s' hs => ?_)
          fun _ _ => ?_
        · obtain ⟨⟨_, e⟩, ⟨_, e'⟩⟩ := s, s'
          obtain ⟨rfl, rfl, htwin⟩ := hs
          exact ⟨⟨rfl, rfl⟩, htwin.executor⟩
        refine Mirrors.bind (Mirrors.weaken (onExecutor_beside (put_mirrors halike hid key x
          q.dedicated) _ _) (fun _ _ h => h) (fun _ _ _ _ h => h) fun s s' hs => ?_)
          fun c c' => ?_
        · obtain ⟨⟨_, e⟩, ⟨_, e'⟩⟩ := s, s'
          obtain ⟨⟨rfl, rfl⟩, hexecutor⟩ := hs
          exact ⟨hnamed, rfl, .some ⟨halike, hid⟩, hexecutor⟩
        refine Mirrors.bind (Q := fun _ _ s s' => c'.result = c.result ∧ Twin G id s s')
          (Mirrors.modify fun s s' hs => ?_) fun _ _ => Mirrors.given fun hresult => ?_
        · obtain ⟨⟨_, e⟩, ⟨_, e'⟩⟩ := s, s'
          obtain ⟨⟨rfl, rfl⟩, hc, hexecutor⟩ := hs
          rw [← hc.held, ← hc.held'] at hexecutor
          exact ⟨hc.result, hnamed, rfl, .some ⟨hc.alike, hc.id.trans hid⟩, hexecutor⟩
        · rw [hresult]
          exact Mirrors.ofExcept (fun _ _ _ h => h) fun _ _ h => h

end Writer

end ShuffleBuffer
