import ShuffleBuffer.Fault

/-! # Steps

A step works on a state and answers a value or a fault. What it did to the state before a fault
stays done. -/

namespace ShuffleBuffer

def Step (σ α : Type) := σ → Except Fault α × σ

namespace Step

variable {σ τ α β : Type}

instance : Monad (Step σ) where
  pure x := fun s => (.ok x, s)
  bind x f := fun s =>
    match x s with
    | (.ok a, s) => f a s
    | (.error fault, s) => (.error fault, s)

def fail (fault : Fault) : Step σ α := fun s => (.error fault, s)

/-- A result that is known already. -/
def ofExcept (result : Except Fault α) : Step σ α := fun s => (result, s)

def read (f : σ → α) : Step σ α := fun s => (.ok (f s), s)

def modify (f : σ → σ) : Step σ Unit := fun s => (.ok (), f s)

/-- A step on a part of the state. -/
def within (part : σ → τ) (put : τ → σ → σ) (x : Step τ α) : Step σ α := fun s =>
  let (result, t) := x (part s)
  (result, put t s)

/-- A step that answers how another one ends. -/
def attempt (x : Step σ α) : Step σ (Except Fault α) := fun s =>
  let (result, s) := x s
  (.ok result, s)

/-- Changes the state once more if the step ends in a fault. -/
def onFault (x : Step σ α) (undo : σ → σ) : Step σ α := fun s =>
  match x s with
  | (.ok a, s) => (.ok a, s)
  | (.error fault, s) => (.error fault, undo s)

/-- Changes the state once more, however the step ends. -/
def always (x : Step σ α) (finish : σ → σ) : Step σ α := fun s =>
  let (result, s) := x s
  (result, finish s)

@[simp] theorem pure_apply (a : α) (s : σ) : (pure a : Step σ α) s = (.ok a, s) := rfl

theorem bind_apply (x : Step σ α) (f : α → Step σ β) (s : σ) :
    (x >>= f) s =
      match x s with
      | (.ok a, s) => f a s
      | (.error fault, s) => (.error fault, s) := rfl

theorem bind_ok {x : Step σ α} {s s' : σ} {a : α} (h : x s = (.ok a, s')) (f : α → Step σ β) :
    (x >>= f) s = f a s' := by
  simp only [bind_apply, h]

theorem bind_error {x : Step σ α} {s s' : σ} {fault : Fault} (h : x s = (.error fault, s'))
    (f : α → Step σ β) : (x >>= f) s = (.error fault, s') := by
  simp only [bind_apply, h]

end Step

end ShuffleBuffer
