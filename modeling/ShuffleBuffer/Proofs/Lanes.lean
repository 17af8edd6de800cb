import ShuffleBuffer.Proofs.Others
import ShuffleBuffer.Proofs.Sessions
import ShuffleBuffer.Proofs.Twins

/-! # Lanes

Writers with blocks of different names share a session, but each of them has a lane of its own: what
it is, the file of its block and the registration. Its calls see nothing beyond its lane, closes
apart, which look at the pool; and they leave all other lanes alone. So two calls of different
writers can change places as long as one of them is no close. -/

namespace ShuffleBuffer

open Estimate Step Executor

variable {σ α : Type}

/-- Which names stand for writers, and on which blocks these are. -/
structure Allotment where
  block : String → Option BlockId
  single : ∀ {name name' id}, block name = some id → block name' = some id → name' = name

/-- A call of the writer of this name, which is on this block. -/
def Call.Under (name : String) (id : BlockId) : Call σ α → Prop
  | .openWriter other task edge _ _ => other = name ∧ BlockId.of edge.id task = id
  | .write other _ => other = name
  | .close other => other = name
  | _ => False

def Call.isClose : Call σ α → Bool
  | .close _ => true
  | _ => false

namespace Executor

/-- No call changes how an estimator estimates. -/
def sameOptions : Change (Executor α) where
  rel e e' := e'.estimator.options = e.estimator.options
  refl _ := rfl
  trans h h' := h'.trans h

theorem neutral_sameOptions :
    Neutral (fun _ => True) (fun _ => True) (sameOptions (α := α)) fun _ _ => True where
  stable _ := fun _ h => h
  steady := fun _ h => h
  suited h := h
  metrics _ _ := rfl
  estimate _ _ _ := rfl
  create _ _ := Along.of_rel fun _ _ => rfl
  write _ _ _ := Along.of_rel fun _ _ => rfl
  commitPartitions _ := Along.of_rel fun _ _ => rfl
  commit _ := Along.of_rel fun _ _ => rfl
  spill _ := Along.of_rel fun _ _ => rfl
  release _ := rfl
  register _ _ _ _ _ := Along.of_rel fun _ _ => rfl
  replace _ _ _ := Along.of_rel fun _ _ => rfl

variable {G G' : Shared → Shared → Prop} {id : BlockId} {held held' : Option FileId}
  {e e' e'' : Executor α}

/-- What others do leaves a twin. -/
theorem Twin.watched (h : Twin G id held held' e e') (hrel : Watched id ⊤ ⊤ e' e'')
    (hoptions : e''.estimator.options = e'.estimator.options) :
    Twin (fun _ _ => True) id held held' e e'' := by
  have hlive : ∀ n : Nat, (n : ℕ∞) < ⊤ := ENat.natCast_lt_top
  refine ⟨h.medium.apart hrel.medium (hrel.spares.file (hlive _)), ?_,
    hrel.able.tracker.trans h.tracker, ⟨h.estimator.usable, hrel.able.usable h.estimator.usable',
      hoptions.trans h.estimator.options⟩, trivial⟩
  rw [hrel.spares.entry (hlive _)]
  exact h.entry

/-- Readers of the block of this name find the same. -/
theorem Twin.readPartition (h : Twin G id held held' e e') (hkeyed : e.registry.Keyed)
    (key : PartitionKey) : e'.registry.readPartition id key = e.registry.readPartition id key := by
  have hentry := h.entry
  unfold Registry.readPartition Registry.entry
  cases hregistered : e.registry.entry? id with
  | none =>
    rw [hregistered] at hentry
    generalize e'.registry.entry? id = registered' at hentry ⊢
    cases hentry
    rfl
  | some registered =>
    have hnamed : registered.block.id = id := hkeyed _ (mem_of_lookup hregistered)
    rw [hregistered] at hentry
    generalize e'.registry.entry? id = registered' at hentry ⊢
    cases hentry with
    | some hsame =>
      subst hnamed
      exact Block.readPartition_congr hsame.2 h.medium.letGo key

/-- An executor and the same one with another pool. -/
theorem twin_withPool (id : BlockId) (hsteady : e.registry.medium.codec.Steady)
    (hformed : e.registry.medium.dir.WellFormed) (husable : e.estimator.Usable) (pool : Pool) :
    Twin (fun g g' => g' = { g with pool }) id none none e { e with pool } := by
  refine ⟨⟨rfl, hsteady, rfl, hformed, hformed, rfl, nofun, nofun⟩, ?_, rfl, ⟨husable, husable, rfl⟩,
    rfl⟩
  dsimp only
  cases e.registry.entry? id with
  | none => exact .none
  | some registered => exact .some ⟨rfl, .refl _⟩

end Executor

namespace Session

open Writer

variable {a : Allotment} {name : String} {id other : BlockId} {s s' s'' : Session σ α}
  {call : Call σ α}

/-- Every writer is on the block that is allotted to its name, and has no file open but its own. -/
structure Allotted (a : Allotment) (s : Session σ α) : Prop where
  formed : s.executor.registry.medium.dir.WellFormed
  keyed : s.executor.registry.Keyed
  writers : ∀ {name w}, s.writer? name = some w → a.block name = some w.id ∧
    ∀ b, w.block = some b → b.id = w.id ∧ b.Sound s.executor.registry.medium.dir

section Frame

variable [Measured α]

/-- A call leaves all other lanes alone; its own lane is not looked at. -/
theorem Allotted.follows (hs : s.Allotted a) (hname : a.block name = some id)
    (hcall : call.Under name id) (other : BlockId) (n r : ℕ∞)
    (hnr : other = id → n = 0 ∧ r = 0) :
    Follows (· = name) (· = id) (Sited (· = id) other n r) (watched other n r)
      (Stranger (· = id) other n r) s (perform call s).2 := by
  have hsited : Sited (· = id) other n r s.executor := by
    refine ⟨hs.formed, hs.keyed, fun h => ?_, fun h => ?_⟩
    · rw [(hnr h).1]
      exact zero_le
    · rw [(hnr h).2]
      exact zero_le
  refine perform_follows (neutral_watched _ other n r)
    (fun _ _ => Watched.of_same rfl rfl ⟨rfl, fun h => h⟩) ⟨hsited, ?_⟩ ?_
  · rintro _ w rfl hw
    obtain ⟨hmine, hblock⟩ := hs.writers hw
    obtain rfl : w.id = id := Option.some.inj (hmine.symm.trans hname)
    refine ⟨rfl, fun b hb => ?_⟩
    obtain ⟨hid, hsound⟩ := hblock b hb
    refine ⟨hid, hsited, hsound, fun hlive => ?_⟩
    by_cases hsame : other = w.id
    · rw [(hnr hsame).1] at hlive
      exact absurd hlive not_lt_zero
    · exact Block.location_ne (hid ▸ Ne.symm hsame)
  · cases call with
    | openWriter | write | close => exact hcall
    | drop | removeBlock | disturb => exact hcall.elim

/-- A writer is as it was unless it was the one called. -/
theorem Allotted.writer_ne (hs : s.Allotted a) (hname : a.block name = some id)
    (hcall : call.Under name id) {other : String} (hother : other ≠ name) :
    (Session.perform call s).2.writer? other = s.writer? other :=
  (hs.follows hname hcall id 0 0 fun _ => ⟨rfl, rfl⟩).others hother

theorem Allotted.perform (hs : s.Allotted a) (hname : a.block name = some id)
    (hcall : call.Under name id) : (perform call s).2.Allotted a := by
  have hfollows := hs.follows hname hcall id 0 0 fun _ => ⟨rfl, rfl⟩
  refine ⟨hfollows.holders.suited.formed, hfollows.holders.suited.keyed, fun {n w} hw => ?_⟩
  by_cases hmine : n = name
  · obtain ⟨hid, hholding⟩ := hfollows.holders.writers hmine hw
    rw [hmine, hid]
    exact ⟨hname, fun b hb => ⟨(hholding b hb).1, (hholding b hb).2.block.sound⟩⟩
  · rw [hfollows.others hmine] at hw
    obtain ⟨hid, hblock⟩ := hs.writers hw
    exact ⟨hid, fun b hb => ⟨(hblock b hb).1,
      (hblock b hb).2.kept hfollows.executor.medium.dir⟩⟩

theorem perform_options (s : Session σ α) (hcall : call.Under name id) :
    (perform call s).2.executor.estimator.options =
      s.executor.estimator.options := by
  have hwithin : call.Within (fun _ => True) (fun _ => True) (fun _ => True) sameOptions := by
    cases call with
    | openWriter => exact ⟨trivial, trivial⟩
    | write | close | drop => trivial
    | removeBlock | disturb => exact hcall.elim
  exact (perform_follows neutral_sameOptions (fun _ _ => rfl) (.everywhere s) hwithin).executor

end Frame

/-! ## The same lane in two sessions -/

/-- Two sessions that agree on the lane of a block, and on what is shared as far as `G` says. -/
structure Twin (a : Allotment) (G : Shared → Shared → Prop) (id : BlockId) (s s' : Session σ α) :
    Prop where
  executor : Executor.Twin G id none none s.executor s'.executor
  writer : ∀ {name}, a.block name = some id →
    Option.Rel (fun w w' => Writer.Twin G id (w, s.executor) (w', s'.executor)) (s.writer? name)
      (s'.writer? name)

variable {G G' : Shared → Shared → Prop}

theorem Twin.sharing (h : Twin a G id s s') (hG : G' s.executor.shared s'.executor.shared) :
    Twin a G' id s s' := by
  refine ⟨h.executor.sharing hG, fun {name} hname => ?_⟩
  have hwriter := h.writer hname
  generalize s.writer? name = w at hwriter ⊢
  generalize s'.writer? name = w' at hwriter ⊢
  cases hwriter with
  | none => exact .none
  | some hw => exact .some { hw with executor := hw.executor.sharing hG }

theorem Twin.symm (h : Twin a G id s s') : Twin a (fun g g' => G g' g) id s' s := by
  refine ⟨h.executor.symm, fun {name} hname => ?_⟩
  have hwriter := h.writer hname
  generalize s.writer? name = w at hwriter ⊢
  generalize s'.writer? name = w' at hwriter ⊢
  cases hwriter with
  | none => exact .none
  | some hw => exact .some hw.symm

theorem Twin.trans (h : Twin a G id s s') (h' : Twin a G' id s' s'') :
    Twin a (fun _ _ => True) id s s'' := by
  refine ⟨h.executor.trans h'.executor, fun {name} hname => ?_⟩
  have hwriter := h.writer hname
  have hwriter' := h'.writer hname
  generalize s.writer? name = w at hwriter ⊢
  generalize s'.writer? name = w' at hwriter hwriter'
  generalize s''.writer? name = w'' at hwriter' ⊢
  cases hwriter with
  | none =>
    cases hwriter'
    exact .none
  | some hw =>
    cases hwriter' with
    | some hw' => exact .some (hw.trans hw')

/-- A new or changed writer takes its place under its name. -/
theorem putWriter_twin {w w' : Writer σ α} {e e' : Executor α} (hname : a.block name = some id)
    (h : Writer.Twin G id (w, e) (w', e')) :
    Twin a G id ({ s with executor := e }.putWriter name w)
      ({ s' with executor := e' }.putWriter name w') := by
  refine ⟨h.executor.letGo, fun {n} hn => ?_⟩
  obtain rfl : n = name := a.single hname hn
  rw [writer_putWriter, writer_putWriter]
  exact .some h

theorem callWriter_twin {x : Step (Writer σ α × Executor α) Unit}
    (hx : ∀ {w w'}, s.writer? name = some w → Writer.Twin G id (w, s.executor) (w', s'.executor) →
      Agree (fun _ _ => Writer.Twin G id) (Writer.Twin G id) (x (w, s.executor))
        (x (w', s'.executor)))
    (hname : a.block name = some id) (h : Twin a G id s s') :
    Agree (fun _ _ => Twin a G id) (Twin a G id) ((s.callWriter name x).getD (.ok (), s))
      ((s'.callWriter name x).getD (.ok (), s')) := by
  have hwriter := h.writer hname
  unfold callWriter
  generalize s.writer? name = w at hwriter hx ⊢
  generalize s'.writer? name = w' at hwriter ⊢
  cases hwriter with
  | none => exact .ok h
  | @some w w' hw =>
    have hstep := hx rfl hw
    dsimp only
    generalize x (w, s.executor) = outcome at hstep ⊢
    generalize x (w', s'.executor) = outcome' at hstep ⊢
    cases hstep with
    | @ok _ _ t t' hcalled =>
      exact .ok (putWriter_twin hname hcalled)
    | @error _ t t' hcalled =>
      exact .error (putWriter_twin hname hcalled)

section Calls

variable [Measured α]

/-- The calls of another writer leave a twin. -/
theorem Twin.aside (h : Twin a G other s s') (hs' : s'.Allotted a)
    (hname : a.block name = some id) (hcall : call.Under name id) (hother : other ≠ id) :
    Twin a (fun _ _ => True) other s (perform call s').2 := by
  have hfollows := hs'.follows hname hcall other ⊤ ⊤ fun hsame => absurd hsame hother
  have hoptions := perform_options s' hcall
  refine ⟨h.executor.watched hfollows.executor hoptions, fun {n} hn => ?_⟩
  have hne : n ≠ name := by
    rintro rfl
    exact hother (Option.some.inj (hn.symm.trans hname))
  rw [hfollows.others hne]
  have hwriter := h.writer hn
  generalize s.writer? n = w at hwriter ⊢
  generalize s'.writer? n = w' at hwriter ⊢
  cases hwriter with
  | none => exact .none
  | some hw => exact .some { hw with executor := hw.executor.watched hfollows.executor hoptions }

theorem openWriter_twin (hG : Shared.Counts G) {task : TaskId} {edge : Edge}
    (destination : Destination) (p : Partitioner σ α)
    (hname : a.block name = some (.of edge.id task)) (habsent : s.writer? name = none)
    (h : Twin a G (.of edge.id task) s s') :
    Agree (fun _ _ => Twin a G (.of edge.id task)) (Twin a G (.of edge.id task))
      (perform (.openWriter name task edge destination p) s)
      (perform (.openWriter name task edge destination p) s') := by
  have hwriter := h.writer hname
  rw [habsent] at hwriter
  have habsent' : s'.writer? name = none := by
    generalize s'.writer? name = w' at hwriter
    cases hwriter
    rfl
  have hmake := make_mirrors hG task edge destination p _ _ h.executor
  simp only [Session.perform, openWriter, bind_apply, Session.onExecutor, within]
  generalize make task edge destination p s.executor = made at hmake ⊢
  generalize make task edge destination p s'.executor = made' at hmake ⊢
  cases hmake with
  | @ok w w' e e' hmade =>
    refine .ok ?_
    have hkept : ∀ {t : Session σ α} {e : Executor α}, t.writer? name = none →
        Session.dropWriter name { t with executor := e } = { t with executor := e } := by
      intro t e ht
      rw [dropWriter, show Session.writer? { t with executor := e } name = none from ht]
    dsimp only [Step.modify]
    rw [hkept habsent, hkept habsent']
    exact putWriter_twin hname hmade
  | error he =>
    refine .error ⟨he, fun {n} hn => ?_⟩
    obtain rfl : n = name := a.single hname hn
    show Option.Rel _ (s.writer? n) (s'.writer? n)
    rw [habsent, habsent']
    exact .none

/-- A name is given to one writer only. -/
def Unused (s : Session σ α) : Call σ α → Prop
  | .openWriter name .. => s.writer? name = none
  | _ => True

/-- A call does the same to the same lane. -/
theorem perform_agree (hG : Shared.Counts G) (hclose : call.isClose = true → Shared.Settles G)
    (hname : a.block name = some id) (hcall : call.Under name id) (hunused : s.Unused call)
    (h : Twin a G id s s') :
    Agree (fun _ _ => Twin a G id) (Twin a G id) (perform call s) (perform call s') := by
  cases call with
  | openWriter n task edge destination p =>
    obtain ⟨rfl, rfl⟩ := hcall
    exact openWriter_twin hG destination p hname hunused h
  | write n x =>
    obtain rfl : n = name := hcall
    exact callWriter_twin (fun _ hw => write_mirrors hG x _ _ hw) hname h
  | close n =>
    obtain rfl : n = name := hcall
    exact callWriter_twin (fun _ hw => close_mirrors (hclose rfl) _ _ hw) hname h
  | drop | removeBlock | disturb => exact hcall.elim

theorem perform_twin (hG : Shared.Counts G) (hclose : call.isClose = true → Shared.Settles G)
    (hname : a.block name = some id) (hcall : call.Under name id) (hunused : s.Unused call)
    (h : Twin a G id s s') :
    (perform call s').1 = (perform call s).1 ∧
      Twin a G id (perform call s).2 (perform call s').2 :=
  (perform_agree hG hclose hname hcall hunused h).same

end Calls

end Session

end ShuffleBuffer
