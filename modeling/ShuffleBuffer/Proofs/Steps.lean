import ShuffleBuffer.Step

/-! # What holds after a step

`x.Leads P Q E` says that `x`, begun where `P` holds, answers something of which `Q` holds in the
state it leaves, or ends in a fault and leaves a state with `E`. Each way of building a step has one
rule. `x.Along R P Q` is for changes that may follow one another: the step makes such a change from
wherever `P` holds, whatever it answers. `x.Yields s Q` says that from `s` there is an answer. -/

namespace ShuffleBuffer.Step

variable {σ τ α β : Type}

def Leads (P : σ → Prop) (x : Step σ α) (Q : α → σ → Prop) (E : σ → Prop) : Prop :=
  ∀ s, P s → match x s with
    | (.ok a, s') => Q a s'
    | (.error _, s') => E s'

section Leads

variable {P P' E E' : σ → Prop} {Q Q' : α → σ → Prop} {R : β → σ → Prop}

theorem Leads.weaken {x : Step σ α} (h : Leads P' x Q' E') (hP : ∀ s, P s → P' s)
    (hQ : ∀ a s, Q' a s → Q a s) (hE : ∀ s, E' s → E s) : Leads P x Q E := by
  intro s hs
  have hstep := h s (hP s hs)
  cases hx : x s with
  | mk result s' =>
    rw [hx] at hstep
    cases result with
    | ok a => exact hQ a s' hstep
    | error fault => exact hE s' hstep

/-- What holds in either case holds of the state that is left. -/
theorem Leads.apply {x : Step σ α} (h : Leads P x (fun _ => E) E) {s : σ} (hs : P s) :
    E (x s).2 := by
  have hstep := h s hs
  cases hx : x s with
  | mk result s' =>
    rw [hx] at hstep
    cases result with
    | ok a => exact hstep
    | error fault => exact hstep

theorem Leads.fails {x : Step σ α} (h : Leads P x Q E) {s : σ} (hs : P s) {fault : Fault}
    (hfails : (x s).1 = .error fault) : E (x s).2 := by
  have hstep := h s hs
  cases hx : x s with
  | mk result s' =>
    rw [hx] at hstep hfails
    rw [show result = .error fault from hfails] at hstep
    exact hstep

theorem Leads.succeeds {x : Step σ α} (h : Leads P x Q E) {s : σ} (hs : P s) {a : α}
    (hok : (x s).1 = .ok a) : Q a (x s).2 := by
  have hstep := h s hs
  cases hx : x s with
  | mk result s' =>
    rw [hx] at hstep hok
    rw [show result = .ok a from hok] at hstep
    exact hstep

theorem Leads.of_apply {x : Step σ α} (h : ∀ s, P s → E (x s).2) : Leads P x (fun _ => E) E := by
  intro s hs
  have hstep := h s hs
  cases hx : x s with
  | mk result s' =>
    rw [hx] at hstep
    cases result with
    | ok a => exact hstep
    | error fault => exact hstep

theorem Leads.pure {a : α} (h : ∀ s, P s → Q a s) : Leads P (pure a : Step σ α) Q E := h

theorem Leads.fail {fault : Fault} (h : ∀ s, P s → E s) :
    Leads P (Step.fail fault : Step σ α) Q E := h

theorem Leads.bind {x : Step σ α} {f : α → Step σ β} (hx : Leads P x Q E)
    (hf : ∀ a, Leads (Q a) (f a) R E) : Leads P (x >>= f) R E := by
  intro s hs
  have hfirst := hx s hs
  cases hxs : x s with
  | mk result s' =>
    rw [hxs] at hfirst
    cases result with
    | ok a =>
      rw [bind_ok hxs]
      exact hf a s' hfirst
    | error fault =>
      rw [bind_error hxs]
      exact hfirst

theorem Leads.ofExcept {result : Except Fault α} (hok : ∀ a s, result = .ok a → P s → Q a s)
    (herror : ∀ s, P s → E s) : Leads P (Step.ofExcept result) Q E := by
  intro s hs
  cases result with
  | ok a => exact hok a s rfl hs
  | error fault => exact herror s hs

theorem Leads.read {f : σ → α} (h : ∀ s, P s → Q (f s) s) : Leads P (Step.read f) Q E := h

theorem Leads.modify {f : σ → σ} {Q : Unit → σ → Prop} (h : ∀ s, P s → Q () (f s)) :
    Leads P (Step.modify f) Q E := h

/-- A step on a part leads the whole where it leads the part. -/
theorem Leads.within {part : σ → τ} {put : τ → σ → σ} {x : Step τ α}
    (h : ∀ s, P s → Leads (· = part s) x (fun a t => Q a (put t s)) fun t => E (put t s)) :
    Leads P (x.within part put) Q E := by
  intro s hs
  have hpart := h s hs (part s) rfl
  rw [Step.within]
  cases hx : x (part s) with
  | mk result t =>
    rw [hx] at hpart
    cases result with
    | ok a => exact hpart
    | error fault => exact hpart

theorem Leads.onFault {x : Step σ α} {undo : σ → σ} (h : Leads P x Q fun s => E (undo s)) :
    Leads P (x.onFault undo) Q E := by
  intro s hs
  have hstep := h s hs
  rw [Step.onFault]
  cases hx : x s with
  | mk result s' =>
    rw [hx] at hstep
    cases result with
    | ok a => exact hstep
    | error fault => exact hstep

theorem Leads.always {x : Step σ α} {finish : σ → σ}
    (h : Leads P x (fun a s => Q a (finish s)) fun s => E (finish s)) :
    Leads P (x.always finish) Q E := by
  intro s hs
  have hstep := h s hs
  rw [Step.always]
  cases hx : x s with
  | mk result s' =>
    rw [hx] at hstep
    cases result with
    | ok a => exact hstep
    | error fault => exact hstep

/-- A fact that has nothing to do with the state. -/
theorem Leads.given {p : Prop} {x : Step σ α} (h : p → Leads P x Q E) :
    Leads (fun s => p ∧ P s) x Q E := fun s hs => h hs.1 s hs.2

end Leads

/-- A sort of change of states: no change is one, and so are two in a row. -/
structure Change (σ : Type) where
  rel : σ → σ → Prop
  refl : ∀ s, rel s s
  trans : ∀ {s s' s''}, rel s s' → rel s' s'' → rel s s''

/-- A property that such changes leave true. -/
def Change.Saves (R : Change σ) (P : σ → Prop) : Prop := ∀ {s s'}, R.rel s s' → P s → P s'

/-- Where `P` holds the step makes such a change, also if it fails; `Q` holds of its answer. -/
def Along (R : Change σ) (P : σ → Prop) (x : Step σ α) (Q : α → σ → Prop) : Prop :=
  ∀ s, P s → Leads (· = s) x (fun a s' => R.rel s s' ∧ Q a s') (R.rel s)

section Along

variable {R : Change σ} {P P' : σ → Prop} {Q Q' : α → σ → Prop} {M : β → σ → Prop}

theorem Along.rel {x : Step σ α} (h : Along R P x Q) {s : σ} (hs : P s) : R.rel s (x s).2 :=
  Leads.apply (Leads.weaken (h s hs) (fun _ h => h) (fun _ _ h => h.1) fun _ h => h) rfl

theorem Along.of_rel {x : Step σ α} (h : ∀ s, P s → R.rel s (x s).2) :
    Along R P x fun _ _ => True := by
  intro s hs
  refine Leads.weaken (Leads.of_apply (P := (· = s)) (E := R.rel s) ?_) (fun _ h => h)
    (fun _ _ h => ⟨h, trivial⟩) fun _ h => h
  rintro _ rfl
  exact h _ hs

theorem Along.weaken {x : Step σ α} (h : Along R P' x Q') (hP : ∀ s, P s → P' s)
    (hQ : ∀ a s, Q' a s → Q a s) : Along R P x Q := fun s hs =>
  Leads.weaken (h s (hP s hs)) (fun _ h => h) (fun a s' h => ⟨h.1, hQ a s' h.2⟩) fun _ h => h

/-- A change of one sort that is one of another. -/
theorem Along.mono {x : Step σ α} {R' : Change σ} (hR : ∀ s s', R.rel s s' → R'.rel s s')
    (h : Along R P x Q) : Along R' P x Q := fun s hs =>
  Leads.weaken (h s hs) (fun _ h => h) (fun _ s' h => ⟨hR s s' h.1, h.2⟩) (hR s)

/-- What such changes leave true still holds after the step. -/
theorem Along.saves {x : Step σ α} {S : σ → Prop}
    (h : Along R (fun _ => True) x fun _ _ => True) (hS : R.Saves S) :
    Along R S x fun _ => S := fun s hs =>
  Leads.weaken (h s trivial) (fun _ h => h) (fun _ _ h => ⟨h.1, hS h.1 hs⟩) fun _ h => h

/-- What is known of every answer of the step is known of these, too. -/
theorem Along.both {x : Step σ α} {C : α → Prop} (h : Along R P x Q)
    (hx : Leads (fun _ => True) x (fun a _ => C a) fun _ => True) :
    Along R P x fun a s => C a ∧ Q a s := by
  intro s hs s' hs'
  have hfirst := hx s' trivial
  have hsecond := h s hs s' hs'
  cases hstep : x s' with
  | mk result t =>
    rw [hstep] at hfirst hsecond
    cases result with
    | ok a => exact ⟨hsecond.1, hfirst, hsecond.2⟩
    | error fault => exact hsecond

theorem Along.given {p : Prop} {x : Step σ α} (h : p → Along R P x Q) :
    Along R (fun s => p ∧ P s) x Q := fun s hs => h hs.1 s hs.2

/-- Of a step that such changes always are, the answers alone. -/
theorem Along.answers {x : Step σ α} {C : α → Prop}
    (h : Along R (fun _ => True) x fun a _ => C a) :
    Leads (fun _ => True) x (fun a _ => C a) fun _ => True := fun s _ =>
  Leads.weaken (h s trivial) (fun _ h => h) (fun _ _ h => h.2) (fun _ _ => trivial) s rfl

/-- Seen from an earlier state, such a change leads on. -/
theorem Along.leads {x : Step σ α} (h : Along R P x Q) (s : σ) :
    Leads (fun s' => P s' ∧ R.rel s s') x (fun a s' => R.rel s s' ∧ Q a s') (R.rel s) :=
  fun s' hs' => Leads.weaken (h s' hs'.1) (fun _ h => h)
    (fun _ _ h => ⟨R.trans hs'.2 h.1, h.2⟩) (fun _ h => R.trans hs'.2 h) s' rfl

theorem Along.pure {a : α} (h : ∀ s, P s → Q a s) : Along R P (pure a : Step σ α) Q := by
  rintro s hs _ rfl
  exact ⟨R.refl _, h _ hs⟩

theorem Along.fail {fault : Fault} : Along R P (Step.fail fault : Step σ α) Q := by
  rintro s _ _ rfl
  exact R.refl _

theorem Along.ofExcept {result : Except Fault α} (h : ∀ a s, result = .ok a → P s → Q a s) :
    Along R P (Step.ofExcept result) Q := by
  rintro s hs _ rfl
  cases result with
  | ok a => exact ⟨R.refl _, h a _ rfl hs⟩
  | error fault => exact R.refl _

theorem Along.read {f : σ → α} (h : ∀ s, P s → Q (f s) s) : Along R P (Step.read f) Q := by
  rintro s hs _ rfl
  exact ⟨R.refl _, h _ hs⟩

theorem Along.modify {f : σ → σ} {Q : Unit → σ → Prop}
    (h : ∀ s, P s → R.rel s (f s) ∧ Q () (f s)) : Along R P (Step.modify f) Q := by
  rintro s hs _ rfl
  exact h _ hs

theorem Along.bind {x : Step σ β} {f : β → Step σ α} (hx : Along R P x M)
    (hf : ∀ b, Along R (M b) (f b) Q) : Along R P (x >>= f) Q := by
  intro s hs
  refine Leads.bind (hx s hs) fun b s' hs' => ?_
  exact Leads.weaken (hf b s' hs'.2) (fun _ h => h) (fun _ _ h => ⟨R.trans hs'.1 h.1, h.2⟩)
    (fun _ h => R.trans hs'.1 h) s' rfl

theorem Along.ite {p : Prop} [Decidable p] {x y : Step σ α} (hx : Along R P x Q)
    (hy : Along R P y Q) : Along R P (if p then x else y) Q := by
  split
  · exact hx
  · exact hy

theorem Along.onFault {x : Step σ α} {undo : σ → σ} (hx : Along R P x Q)
    (hundo : ∀ s s', P s → R.rel s s' → R.rel s' (undo s')) : Along R P (x.onFault undo) Q :=
  fun s hs => Leads.onFault (Leads.weaken (hx s hs) (fun _ h => h) (fun _ _ h => h)
    fun s' h => R.trans h (hundo s s' hs h))

theorem Along.always {x : Step σ α} {finish : σ → σ} (hx : Along R P x Q)
    (hfinish : ∀ s s', P s → R.rel s s' → R.rel s' (finish s'))
    (hQ : ∀ a s, Q a s → Q a (finish s)) : Along R P (x.always finish) Q :=
  fun s hs => Leads.always (Leads.weaken (hx s hs) (fun _ h => h)
    (fun a s' h => ⟨R.trans h.1 (hfinish s s' hs h.1), hQ a s' h.2⟩)
    fun s' h => R.trans h (hfinish s s' hs h))

end Along

/-- The step answers something, and `Q` holds of it in the state that it leaves. -/
def Yields (x : Step σ α) (s : σ) (Q : α → σ → Prop) : Prop :=
  ∃ a s', x s = (.ok a, s') ∧ Q a s'

section Yields

variable {s : σ} {Q Q' : α → σ → Prop} {M : β → σ → Prop}

theorem Yields.weaken {x : Step σ α} (h : x.Yields s Q') (hQ : ∀ a s', Q' a s' → Q a s') :
    x.Yields s Q := by
  obtain ⟨a, s', hx, ha⟩ := h
  exact ⟨a, s', hx, hQ a s' ha⟩

theorem Yields.pure {a : α} (h : Q a s) : Yields (pure a) s Q := ⟨a, s, rfl, h⟩

theorem Yields.ofExcept {result : Except Fault α} {a : α} (hresult : result = .ok a) (h : Q a s) :
    Yields (Step.ofExcept result) s Q := by
  subst hresult
  exact ⟨a, s, rfl, h⟩

theorem Yields.read {f : σ → α} (h : Q (f s) s) : Yields (Step.read f) s Q := ⟨f s, s, rfl, h⟩

theorem Yields.modify {f : σ → σ} {Q : Unit → σ → Prop} (h : Q () (f s)) :
    Yields (Step.modify f) s Q := ⟨(), f s, rfl, h⟩

theorem Yields.bind {x : Step σ β} {f : β → Step σ α} (hx : x.Yields s M)
    (hf : ∀ b s', M b s' → (f b).Yields s' Q) : Yields (x >>= f) s Q := by
  obtain ⟨b, s', hxs, hb⟩ := hx
  obtain ⟨a, s'', hfs, ha⟩ := hf b s' hb
  exact ⟨a, s'', (bind_ok hxs f).trans hfs, ha⟩

/-- Two steps in a row may be taken for one. -/
theorem Yields.bind_bind {γ : Type} {x : Step σ γ} {f : γ → Step σ β} {g : β → Step σ α}
    (h : (x >>= f).Yields s M) (hg : ∀ b s', M b s' → (g b).Yields s' Q) :
    Yields (x >>= fun c => f c >>= g) s Q := by
  obtain ⟨a, s', hgs, ha⟩ := Yields.bind h hg
  refine ⟨a, s', ?_, ha⟩
  rw [← hgs]
  simp only [bind_apply]
  split <;> rfl

theorem Yields.within {part : σ → τ} {put : τ → σ → σ} {x : Step τ α}
    (h : x.Yields (part s) fun a t => Q a (put t s)) : Yields (x.within part put) s Q := by
  obtain ⟨a, t, hx, ha⟩ := h
  exact ⟨a, put t s, by rw [Step.within, hx], ha⟩

theorem Yields.onFault {x : Step σ α} {undo : σ → σ} (h : x.Yields s Q) :
    Yields (x.onFault undo) s Q := by
  obtain ⟨a, s', hx, ha⟩ := h
  exact ⟨a, s', by rw [Step.onFault, hx], ha⟩

theorem Yields.always {x : Step σ α} {finish : σ → σ}
    (h : x.Yields s fun a s' => Q a (finish s')) : Yields (x.always finish) s Q := by
  obtain ⟨a, s', hx, ha⟩ := h
  exact ⟨a, finish s', by rw [Step.always, hx], ha⟩

theorem Leads.of_yields {P E : σ → Prop} {x : Step σ α} (h : ∀ s, P s → x.Yields s Q) :
    Leads P x Q E := by
  intro s hs
  obtain ⟨a, s', hx, ha⟩ := h s hs
  rw [hx]
  exact ha

/-- A step that cannot fail answers something. -/
theorem Leads.yields {P : σ → Prop} {x : Step σ α} (h : Leads P x Q fun _ => False) (hs : P s) :
    x.Yields s Q := by
  have hstep := h s hs
  cases hx : x s with
  | mk result s' =>
    rw [hx] at hstep
    cases result with
    | ok a => exact ⟨a, s', hx, hstep⟩
    | error fault => exact hstep.elim

end Yields

end ShuffleBuffer.Step
