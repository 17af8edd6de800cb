import ShuffleBuffer.Proofs.Run

/-! # Calls of some writers

Some of the writers of a session are on blocks of certain names. If whatever these ask for is a
change of one sort, so is each of their calls and every sequence of them; the other writers are as
they were. -/

namespace ShuffleBuffer

open Estimate Step Executor

variable {σ α : Type}

/-- A call of one of these writers on a block of one of these names. What does not come from a
writer has to be a change of the sort itself. -/
def Call.Within (names : String → Prop) (ids : BlockId → Prop) (S : Executor α → Prop)
    (R : Change (Executor α)) : Call σ α → Prop
  | .openWriter name task edge _ _ => names name ∧ ids (.of edge.id task)
  | .write name _ => names name
  | .close name => names name
  | .drop name => names name
  | .removeBlock id => ∀ e, S e → R.rel e (Executor.removeBlock id e).2
  | .disturb dir => ∀ e, S e →
      R.rel e (Executor.onMedium (Step.modify fun medium => { medium with dir }) e).2

/-- Where nothing is asked of names and blocks, removals and disturbances alone are to be looked at. -/
theorem Call.within_all {R : Change (Executor α)}
    (hremove : ∀ (id : BlockId) (e : Executor α), R.rel e (Executor.removeBlock id e).2)
    (hdisturb : ∀ (dir : SpillDir) (e : Executor α),
      R.rel e (Executor.onMedium (Step.modify fun medium => { medium with dir }) e).2)
    (call : Call σ α) : call.Within (fun _ => True) (fun _ => True) (fun _ => True) R := by
  cases call with
  | openWriter => exact ⟨trivial, trivial⟩
  | write | close | drop => trivial
  | removeBlock id => exact fun e _ => hremove id e
  | disturb dir => exact fun e _ => hdisturb dir e

namespace Executor

/-- Further requests may have been noted. -/
def grows : Change (Executor α) where
  rel e e' := e.requests <:+ e'.requests
  refl _ := List.suffix_rfl
  trans h h' := h.trans h'

theorem neutral_grows :
    Neutral (fun _ => True) (fun _ => True) (grows (α := α)) fun _ _ => True where
  stable _ := fun _ h => h
  steady := fun _ h => h
  suited h := h
  metrics _ _ := List.suffix_rfl
  estimate _ _ _ := List.suffix_rfl
  create _ _ := Along.of_rel fun _ _ => List.suffix_cons _ _
  write _ _ _ := Along.of_rel fun _ _ => List.suffix_cons _ _
  commitPartitions _ := Along.of_rel fun _ _ => List.suffix_cons _ _
  commit _ := Along.of_rel fun _ _ => List.suffix_cons _ _
  spill _ := Along.of_rel fun _ _ => List.suffix_cons _ _
  release _ := List.suffix_rfl
  register _ _ _ _ _ := Along.of_rel fun _ _ => List.suffix_cons _ _
  replace _ _ _ := Along.of_rel fun _ _ => List.suffix_cons _ _

end Executor

namespace Session

open Writer

/-! ## Looking up writers -/

variable {s s' s'' : Session σ α} {name other : String} {w : Writer σ α}

theorem writer_putWriter (s : Session σ α) (name : String) (w : Writer σ α) :
    (s.putWriter name w).writer? name = some w := List.lookup_cons_self

theorem writer_putWriter_ne (s : Session σ α) (w : Writer σ α) (h : other ≠ name) :
    (s.putWriter name w).writer? other = s.writer? other :=
  (lookup_cons_ne h).trans (lookup_filter_ne _ h)

theorem writer_dropWriter (s : Session σ α) (name : String) :
    (s.dropWriter name).writer? name = none := by
  unfold dropWriter
  cases hw : s.writer? name with
  | none => exact hw
  | some w => exact lookup_filter_self _ _

theorem writer_dropWriter_ne (s : Session σ α) (h : other ≠ name) :
    (s.dropWriter name).writer? other = s.writer? other := by
  unfold dropWriter
  split
  · rfl
  · exact lookup_filter_ne _ h

/-! ## Writers and their blocks -/

/-- Blocks are created where `S` holds, and the blocks of these writers have the property `B`. -/
structure Holders (names : String → Prop) (ids : BlockId → Prop) (S : Executor α → Prop)
    (B : Block α → Executor α → Prop) (s : Session σ α) : Prop where
  suited : S s.executor
  writers : ∀ {name w}, names name → s.writer? name = some w →
    ids w.id ∧ Holding ids B (w, s.executor)

/-- Each of these writers and its block fit each other. -/
def Tidy (names : String → Prop) (s : Session σ α) : Prop :=
  ∀ {name w}, names name → s.writer? name = some w → w.Tended

/-- What the calls of these writers make of a session. -/
structure Follows (names : String → Prop) (ids : BlockId → Prop) (S : Executor α → Prop)
    (R : Change (Executor α)) (B : Block α → Executor α → Prop) (s s' : Session σ α) : Prop where
  executor : R.rel s.executor s'.executor
  others : ∀ {name}, ¬ names name → s'.writer? name = s.writer? name
  holders : Holders names ids S B s'
  tidy : s.Tidy names → s'.Tidy names

/-- Where nothing is asked of a block, all writers may be looked at. -/
theorem Holders.everywhere (s : Session σ α) :
    Holders (fun _ => True) (fun _ => True) (fun _ => True) (fun _ _ => True) s :=
  ⟨trivial, fun _ _ => ⟨trivial, fun _ _ => ⟨trivial, trivial⟩⟩⟩

variable {names : String → Prop} {ids : BlockId → Prop} {S : Executor α → Prop}
  {R : Change (Executor α)} {B : Block α → Executor α → Prop} {β : Type}

theorem Holders.refl (hs : Holders names ids S B s) : Follows names ids S R B s s :=
  ⟨R.refl _, fun _ => rfl, hs, fun h => h⟩

theorem Follows.trans (h : Follows names ids S R B s s') (h' : Follows names ids S R B s' s'') :
    Follows names ids S R B s s'' :=
  ⟨R.trans h.executor h'.executor, fun hname => (h'.others hname).trans (h.others hname),
    h'.holders, fun hs => h'.tidy (h.tidy hs)⟩

/-- Writers and blocks that were there stay as they should be, so only new ones are to be looked
at. -/
theorem Holders.follows (h : Quiet ids S R B) (hs : Holders names ids S B s)
    (hrel : R.rel s.executor s'.executor)
    (hothers : ∀ {name}, ¬ names name → s'.writer? name = s.writer? name)
    (hnew : ∀ {name w}, names name → s'.writer? name = some w → s.writer? name = some w ∨
      (ids w.id ∧ Holding ids B (w, s'.executor)) ∧ (s.Tidy names → w.Tended)) :
    Follows names ids S R B s s' := by
  refine ⟨hrel, hothers, ⟨h.steady hrel hs.suited, fun hname hw => ?_⟩,
    fun htidy _ _ hname hw => ?_⟩
  · obtain hold | hnew := hnew hname hw
    · obtain ⟨hid, hholding⟩ := hs.writers hname hold
      exact ⟨hid, fun b hb => ⟨(hholding b hb).1, h.stable b hrel (hholding b hb).2⟩⟩
    · exact hnew.1
  · obtain hold | hnew := hnew hname hw
    · exact htidy hname hold
    · exact hnew.2 htidy

/-- The executor alone has changed. -/
theorem Holders.onExecutor (h : Quiet ids S R B) (hs : Holders names ids S B s) {e : Executor α}
    (hrel : R.rel s.executor e) : Follows names ids S R B s { s with executor := e } :=
  hs.follows h hrel (fun _ => rfl) fun _ hw => .inl hw

theorem putWriter_follows (h : Quiet ids S R B) (hs : Holders names ids S B s)
    (hname : names name) (hw : ids w.id ∧ Holding ids B (w, s.executor))
    (htended : s.Tidy names → w.Tended) :
    Follows names ids S R B s (s.putWriter name w) := by
  refine hs.follows h (R.refl _) (fun hother => ?_) fun {other w'} _ hw' => ?_
  · exact writer_putWriter_ne _ _ fun heq => hother (heq ▸ hname)
  · by_cases hsame : other = name
    · subst hsame
      cases (writer_putWriter _ _ _).symm.trans hw'
      exact .inr ⟨hw, htended⟩
    · exact .inl ((writer_putWriter_ne _ _ hsame).symm.trans hw')

theorem callWriter_follows (h : Quiet ids S R B) (hs : Holders names ids S B s)
    (hname : names name) {call : Step (Writer σ α × Executor α) β}
    (hcall : ∀ w, ids w.id ∧ Holding ids B (w, s.executor) →
      (beside h).rel (w, s.executor) (call (w, s.executor)).2)
    (hw : s.writer? name = some w) :
    Follows names ids S R B s ({ s with executor := (call (w, s.executor)).2.2 }.putWriter name
      (call (w, s.executor)).2.1) := by
  obtain ⟨hid, hholding⟩ := hs.writers hname hw
  have hrel := hcall w ⟨hid, hholding⟩
  have hfirst := hs.onExecutor h hrel.executor
  refine hfirst.trans (putWriter_follows h hfirst.holders hname ⟨?_, ?_⟩ fun htidy => ?_)
  · exact hrel.id ▸ hid
  · exact Holding.saved hrel hholding
  · exact Tended.saved hrel (htidy hname hw)

theorem dropWriter_follows (h : Quiet ids S R B) (hs : Holders names ids S B s)
    (hname : names name) : Follows names ids S R B s (s.dropWriter name) := by
  refine hs.follows h ?_ (fun hother => ?_) fun {other w} _ hw => ?_
  · cases hw : s.writer? name with
    | none =>
      rw [dropWriter, hw]
      exact R.refl _
    | some w =>
      obtain ⟨-, hholding⟩ := hs.writers hname hw
      rw [dropWriter, hw]
      cases hb : w.block with
      | none =>
        simp only [hb]
        exact R.refl _
      | some b =>
        simp only [hb]
        exact h.release (hholding b hb).2
  · exact writer_dropWriter_ne s fun heq => hother (heq ▸ hname)
  · by_cases hsame : other = name
    · rw [hsame, writer_dropWriter] at hw
      cases hw
    · exact .inl ((writer_dropWriter_ne s hsame).symm.trans hw)

/-! ## Calls -/

variable [Measured α]

theorem openWriter_follows (h : Quiet ids S R B) (hs : Holders names ids S B s)
    (hname : names name) (task : TaskId) (edge : Edge) (hid : ids (.of edge.id task))
    (destination : Destination) (p : Partitioner σ α) :
    Follows names ids S R B s (perform (.openWriter name task edge destination p) s).2 := by
  have hmake := Writer.make_along h task edge hid destination p s.executor hs.suited _ rfl
  simp only [perform, openWriter, bind_apply, Session.onExecutor, within]
  cases hmade : Writer.make task edge destination p s.executor with
  | mk result e =>
    rw [hmade] at hmake
    cases result with
    | error fault => exact hs.onExecutor h hmake
    | ok w =>
      obtain ⟨hrel, hmine, htended, hholding⟩ := hmake
      have hfirst := hs.onExecutor h hrel
      have hdrop := dropWriter_follows h hfirst.holders hname
      refine (hfirst.trans hdrop).trans
        (putWriter_follows h hdrop.holders hname ⟨?_, fun b hb => ?_⟩ fun _ => htended)
      · exact hmine ▸ hid
      · exact ⟨(hholding b hb).1, h.stable b hdrop.executor (hholding b hb).2⟩

theorem write_follows (h : Quiet ids S R B) (hs : Holders names ids S B s) (hname : names name)
    (x : α) : Follows names ids S R B s (perform (.write name x) s).2 := by
  cases hw : s.writer? name with
  | none =>
    simp only [perform, callWriter, hw, Option.getD_none]
    exact hs.refl
  | some w =>
    simp only [perform, callWriter, hw, Option.getD_some]
    exact callWriter_follows h hs hname (fun _ hheld => (write_along x).rel hheld.2) hw

theorem close_follows (h : Neutral ids S R B)
    (hpool : ∀ (e : Executor α) (p : Pool), R.rel e { e with pool := p })
    (hs : Holders names ids S B s) (hname : names name) :
    Follows names ids S R B s (perform (.close name) s).2 := by
  cases hw : s.writer? name with
  | none =>
    simp only [perform, callWriter, hw, Option.getD_none]
    exact hs.refl
  | some w =>
    simp only [perform, callWriter, hw, Option.getD_some]
    exact callWriter_follows h.toQuiet hs hname
      (fun _ hheld => (close_along (h := h) hpool).rel hheld) hw

/-- Whatever such a call answers, it is a change of the sort. -/
theorem perform_follows (h : Neutral ids S R B)
    (hpool : ∀ (e : Executor α) (p : Pool), R.rel e { e with pool := p })
    (hs : Holders names ids S B s) {call : Call σ α} (hcall : call.Within names ids S R) :
    Follows names ids S R B s (perform call s).2 := by
  cases call with
  | openWriter name task edge destination p =>
    exact openWriter_follows h.toQuiet hs hcall.1 task edge hcall.2 destination p
  | write name x => exact write_follows h.toQuiet hs hcall x
  | close name => exact close_follows h hpool hs hcall
  | drop name => exact dropWriter_follows h.toQuiet hs hcall
  | removeBlock id =>
    rw [perform_removeBlock]
    exact hs.onExecutor h.toQuiet (hcall s.executor hs.suited)
  | disturb dir => exact hs.onExecutor h.toQuiet (hcall s.executor hs.suited)

theorem run_follows (h : Neutral ids S R B)
    (hpool : ∀ (e : Executor α) (p : Pool), R.rel e { e with pool := p })
    (hs : Holders names ids S B s) {calls : List (Call σ α)}
    (hcalls : ∀ call ∈ calls, call.Within names ids S R) :
    Follows names ids S R B s (s.run calls) := by
  induction calls generalizing s with
  | nil => exact hs.refl
  | cons call calls ih =>
    have hfirst := perform_follows h hpool hs (hcalls call List.mem_cons_self)
    exact hfirst.trans (ih hfirst.holders fun call hmem => hcalls call (.tail _ hmem))

/-! ## The trace -/

omit [Measured α] in
theorem within_grows (call : Call σ α) :
    call.Within (fun _ => True) (fun _ => True) (fun _ => True) grows := by
  refine call.within_all (fun id e => ?_) fun _ _ => List.suffix_rfl
  obtain ⟨-, hsame⟩ | ⟨removed, -, hremoved⟩ := removeBlock_cases id e
  · rw [hsame]
    exact List.suffix_rfl
  · rw [hremoved]
    exact List.suffix_rfl

/-- No call takes anything from the trace, and all writers fit their blocks as before. -/
theorem run_traced (s : Session σ α) (calls : List (Call σ α)) :
    Follows (fun _ => True) (fun _ => True) (fun _ => True) grows (fun _ _ => True) s
      (s.run calls) :=
  run_follows neutral_grows (fun _ _ => List.suffix_rfl) (.everywhere s)
    fun call _ => within_grows call

end Session

end ShuffleBuffer
