import ShuffleBuffer.Proofs.Admissions
import ShuffleBuffer.Proofs.Exchanges

/-! # A writer alone

A writer is run once among others and once alone. Up to its first close both runs go the same way
whatever the pools are; and they still do after it, because no later close gets to a block. So the
writer answers the same and leaves the same block behind if its first close finds the same pool. -/

namespace ShuffleBuffer

open Estimate Step

variable {σ α : Type} [Measured α] {id : BlockId}

namespace Writer

variable {G : Shared → Shared → Prop} {s s' : Writer σ α × Executor α}

/-- A close that does not get to a block sees nothing of what is shared. -/
theorem close_agree (hidle : s.1.closable = false) (h : Twin G id s s') :
    Agree (fun _ _ => Twin G id) (Twin G id) (close s) (close s') := by
  obtain ⟨result, hclose, -⟩ := close_unclosable hidle
  have hnone : s'.1.block = none ↔ s.1.block = none := by
    have hblock := h.block
    generalize s.1.block = block at hblock
    generalize s'.1.block = block' at hblock
    cases hblock <;> simp
  have hfirst : close s = (result, s) := hclose s.2 s.1.block Iff.rfl
  have hsecond : close s' = (result, s') := by
    rw [show s' = (s'.1, s'.2) from rfl, h.same]
    exact hclose s'.2 s'.1.block hnone
  rw [hfirst, hsecond]
  cases result with
  | ok => exact .ok h
  | error fault => exact .error h

/-- No close leaves a block to the next one. -/
theorem closable_close (s : Writer σ α × Executor α) : (close s).2.1.closable = false := by
  cases hclosable : s.1.closable with
  | true => simp [closable, close_empties hclosable s.2]
  | false =>
    rw [close_idle hclosable s.2]
    exact hclosable

/-- A write gives nothing to a close that would have got nothing. -/
theorem closable_write (x : α) (hidle : s.1.closable = false) :
    (write x s).2.1.closable = false := by
  obtain ⟨⟨edge, destination, p, id, store, block, tracker, state, written, spilled⟩, e⟩ := s
  cases state with
  | noOp | committedMemory | committedDisk => exact hidle
  | writing =>
    cases tracker with
    | some tracker => exact hidle
    | none =>
      cases block with
      | none => exact hidle
      | some block =>
        simp only [write, bind_apply, Step.read, update, Step.modify, onExecutor, within]
        generalize put block (p.next x).1 x (p.next x).2.dedicated e = outcome
        obtain ⟨result, e'⟩ := outcome
        cases result with
        | ok block' => exact hidle
        | error fault => exact hidle

end Writer

namespace Session

open Writer

variable {a : Allotment} {name : String} {s s' : Session σ α} {call : Call σ α}
  {calls : List (Call σ α)} {P : Shared → Prop} {K : Writer σ α → Prop}

/-- One of two sessions has others to run, which are of no concern to a writer. -/
structure Beheld (a : Allotment) (P : Shared → Prop) (K : Writer σ α → Prop) (name : String)
    (id : BlockId) (s s' : Session σ α) : Prop where
  allotted : s.Allotted a
  lane : Twin a (fun _ g => P g) id s s'
  writer : ∀ w, s.writer? name = some w → K w

/-- The run of a writer among others and alone, as far as each of its own calls goes the same way in
both. -/
theorem run_beheld (hname : a.block name = some id)
    (hown : ∀ call ∈ calls, call.Under name id → ∀ s s' : Session σ α, s.Unused call →
      Beheld a P K name id s s' → (perform call s').1 = (perform call s).1 ∧
        Twin a (fun _ g => P g) id (perform call s).2 (perform call s').2 ∧
        ∀ w, (perform call s).2.writer? name = some w → K w)
    (hcalls : Pending a s calls) (h : Beheld a P K name id s s') :
    answers name (Call.about name calls) s' = answers name calls s ∧
      Beheld a P K name id (s.run calls) (s'.run (Call.about name calls)) := by
  induction calls generalizing s s' with
  | nil => exact ⟨rfl, h⟩
  | cons call calls ih =>
    obtain ⟨name', id', hname', hcall⟩ := hcalls.known call List.mem_cons_self
    have hrest := hcalls.perform h.allotted
    have hown' := fun other hmem => hown other (.tail _ hmem)
    have hallotted := h.allotted.perform hname' hcall
    by_cases hmine : name' = name
    · subst hmine
      obtain rfl : id' = id := Option.some.inj (hname'.symm.trans hname)
      obtain ⟨hresult, hlane, hwriter⟩ := hown call List.mem_cons_self hcall s s'
        (hcalls.unused call List.mem_cons_self) h
      obtain ⟨hanswers, hrun⟩ := ih hown' hrest ⟨hallotted, hlane, hwriter⟩
      rw [Call.about_mine hcall.writer, answers_mine hcall.writer, answers_mine hcall.writer, hresult, hanswers]
      exact ⟨rfl, hrun⟩
    · have hother : id ≠ id' := by
        rintro rfl
        exact hmine (a.single hname hname')
      have hlane := (h.lane.symm.aside h.allotted hname' hcall hother).symm
      have hwriter := h.allotted.writer_ne hname' hcall (Ne.symm hmine)
      obtain ⟨hanswers, hrun⟩ := ih hown' hrest
        ⟨hallotted, hlane.sharing h.lane.executor.shared, hwriter ▸ h.writer⟩
      have hne : call.writer? ≠ some name := by
        rw [hcall.writer]
        exact fun heq => hmine (Option.some.inj heq)
      rw [Call.about_other hne, answers_other hne]
      exact ⟨hanswers, hrun⟩

/-- Before its first close a writer does not see the pool, and leaves it as it is. -/
theorem run_beheld_open {pool : Pool} (hname : a.block name = some id)
    (hcloses : .close name ∉ calls) (hcalls : Pending a s calls)
    (h : Beheld a (·.pool = pool) (fun _ => True) name id s s') :
    answers name (Call.about name calls) s' = answers name calls s ∧
      Beheld a (·.pool = pool) (fun _ => True) name id (s.run calls) (s'.run (Call.about name calls)) := by
  refine run_beheld hname (fun call hmem hcall s s' hunused hs => ?_) hcalls h
  have hclose : call.isClose = true → Shared.Settles fun _ g : Shared => g.pool = pool :=
    fun hclose => absurd (hcall.close hclose ▸ hmem) hcloses
  have hcounts : Shared.Counts fun _ g : Shared => g.pool = pool := ⟨fun h => h, fun _ h => h⟩
  obtain ⟨hresult, hlane⟩ := perform_twin hcounts hclose hname hcall hunused hs.lane
  exact ⟨hresult, hlane, fun _ _ => trivial⟩

omit [Measured α] in
theorem closable_callWriter {x : Step (Writer σ α × Executor α) Unit}
    (hx : ∀ w, s.writer? name = some w → (x (w, s.executor)).2.1.closable = false) :
    ∀ w, ((s.callWriter name x).getD (.ok (), s)).2.writer? name = some w → w.closable = false := by
  intro w hw
  cases hbearer : s.writer? name with
  | none =>
    simp only [callWriter, hbearer, Option.getD_none] at hw
    cases hw
  | some bearer =>
    simp only [callWriter, hbearer, Option.getD_some, writer_putWriter, Option.some.injEq] at hw
    exact hw ▸ hx bearer hbearer

/-- The first close goes the same way if it finds the same pool. -/
theorem close_beheld {pool : Pool} (hname : a.block name = some id)
    (hpool : s.executor.pool = pool) (h : Beheld a (·.pool = pool) (fun _ => True) name id s s') :
    (perform (.close name) s').1 = (perform (.close name) s).1 ∧
      Beheld a (fun _ => True) (·.closable = false) name id (perform (.close name) s).2
        (perform (.close name) s').2 := by
  have hcall : Call.Under (σ := σ) (α := α) name id (.close name) := rfl
  have hpools : Shared.Settles fun g g' : Shared => g'.pool = g.pool :=
    ⟨⟨fun h => h, fun _ h => h⟩, fun h => h, fun _ _ => rfl, fun _ h => h⟩
  obtain ⟨hresult, hlane⟩ := perform_twin hpools.toCounts (fun _ => hpools) hname hcall trivial
    (h.lane.sharing (h.lane.executor.shared.trans hpool.symm))
  exact ⟨hresult, h.allotted.perform hname hcall, hlane.sharing trivial,
    closable_callWriter fun w _ => closable_close (w, s.executor)⟩

/-- After its first close a writer does not see the pool, either. -/
theorem run_beheld_closed (hname : a.block name = some id)
    (hopens : ∀ call ∈ calls, call.opens? ≠ some name) (hcalls : Pending a s calls)
    (h : Beheld a (fun _ => True) (·.closable = false) name id s s') :
    answers name (Call.about name calls) s' = answers name calls s ∧
      Beheld a (fun _ => True) (·.closable = false) name id (s.run calls) (s'.run (Call.about name calls)) := by
  refine run_beheld hname (fun call hmem hcall s s' _ hs => ?_) hcalls h
  cases call with
  | openWriter other =>
    obtain rfl : other = name := hcall.1
    exact absurd rfl (hopens _ hmem)
  | write other x =>
    obtain rfl : other = name := hcall
    have hcounts : Shared.Counts fun _ _ : Shared => True := ⟨fun _ => trivial, fun _ _ => trivial⟩
    have hagree := callWriter_twin (fun _ hw => write_mirrors hcounts x _ _ hw) hname hs.lane
    exact ⟨hagree.same.1, hagree.same.2,
      closable_callWriter fun w hw => closable_write x (hs.writer w hw)⟩
  | close other =>
    obtain rfl : other = name := hcall
    have hagree := callWriter_twin (fun hw htwin => close_agree (hs.writer _ hw) htwin) hname
      hs.lane
    exact ⟨hagree.same.1, hagree.same.2, closable_callWriter fun w _ => closable_close _⟩
  | drop | removeBlock | disturb => exact hcall.elim

/-- The pool as the first close of a writer finds it. -/
def foundPool (name : String) : List (Call σ α) → Session σ α → Option Pool
  | [], _ => none
  | call :: calls, s =>
      if call.isClose ∧ call.writer? = some name then some s.executor.pool
      else foundPool name calls (perform call s).2

theorem foundPool_append {before : List (Call σ α)} (h : .close name ∉ before)
    (after : List (Call σ α)) (s : Session σ α) :
    foundPool name (before ++ .close name :: after) s = some (s.run before).executor.pool := by
  induction before generalizing s with
  | nil => exact if_pos ⟨rfl, rfl⟩
  | cons call before ih =>
    obtain ⟨hcall, hbefore⟩ := not_or.mp (mt List.mem_cons.mpr h)
    refine (if_neg ?_).trans (ih hbefore _)
    rintro ⟨hclose, hwriter⟩
    cases call with
    | close other => exact hcall (congrArg Call.close (Option.some.inj hwriter)).symm
    | openWriter | write | drop | removeBlock | disturb => cases hclose

/-- A writer answers alone what it answers among others, and leaves the same lane behind, if its
first close finds the same pool. -/
theorem run_solo {pool : Pool} (hname : a.block name = some id) (hs : s.Allotted a)
    (hcalls : Pending a s calls)
    (hlast : ∀ before after, calls = before ++ .close name :: after →
      ∀ call ∈ after, call.opens? ≠ some name)
    (hpool : ∀ found ∈ foundPool name calls s, found = pool)
    (h : Twin a (fun _ g => g.pool = pool) id s s') :
    answers name (Call.about name calls) s' = answers name calls s ∧
      Twin a (fun _ _ => True) id (s.run calls)
        (s'.run (Call.about name calls)) := by
  have hfirst : Beheld a (·.pool = pool) (fun _ => True) name id s s' :=
    ⟨hs, h, fun _ _ => trivial⟩
  by_cases hclose : .close name ∈ calls
  · obtain ⟨before, after, rfl, hbefore⟩ := List.eq_append_cons_of_mem hclose
    obtain ⟨hanswers, hrun⟩ := run_beheld_open hname hbefore hcalls.left hfirst
    obtain ⟨hresult, hclosed⟩ := close_beheld hname
      (hpool _ (foundPool_append hbefore after s)) hrun
    obtain ⟨hanswers', hrun'⟩ := run_beheld_closed hname (hlast before after rfl)
      ((hcalls.run hs).perform hrun.allotted) hclosed
    rw [Call.about_append, Call.about_mine rfl, answers_append, answers_append, run_append,
      run_append, hanswers]
    refine ⟨congrArg _ ?_, hrun'.lane⟩
    rw [answers_mine rfl, answers_mine rfl, hresult, hanswers']
  · obtain ⟨hanswers, hrun⟩ := run_beheld_open hname hclose hcalls hfirst
    exact ⟨hanswers, hrun.lane.sharing trivial⟩

end Session

end ShuffleBuffer
