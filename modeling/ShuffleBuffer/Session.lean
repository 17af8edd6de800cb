import ShuffleBuffer.Writer

/-! # Sessions

A session is an executor with writers and blocks that are known by names. Their calls may follow one
another in any order, so the steps of a session are all interleavings of what writers and readers
can do. A name that is given again passes to the new bearer; the old one is let go after the new one
has been made. -/

namespace ShuffleBuffer

open Estimate

structure Session (σ α : Type) where
  executor : Executor α
  writers : List (String × Writer σ α) := []
  /-- Blocks that no writer holds and that are not registered. -/
  blocks : List (String × Block α) := []

namespace Session

variable {σ α β : Type}

def onExecutor (x : Step (Executor α) β) : Step (Session σ α) β :=
  x.within Session.executor fun executor s => { s with executor }

def onMedium (x : Step (Medium α) β) : Step (Session σ α) β := onExecutor (Executor.onMedium x)

/-! ## Writers -/

def writer? (s : Session σ α) (name : String) : Option (Writer σ α) := s.writers.lookup name

def putWriter (s : Session σ α) (name : String) (w : Writer σ α) : Session σ α :=
  { s with writers := (name, w) :: s.writers.filter (·.1 ≠ name) }

/-- Lets a writer go, if there is one of this name. -/
def dropWriter (name : String) (s : Session σ α) : Session σ α :=
  match s.writer? name with
  | none => s
  | some w =>
      { s with
        writers := s.writers.filter (·.1 ≠ name)
        executor := match w.block with
          | some block => s.executor.release block
          | none => s.executor }

def openWriter [Measured α] (name : String) (task : TaskId) (edge : Edge)
    (destination : Destination) (partitioner : Partitioner σ α) : Step (Session σ α) Unit := do
  let w ← onExecutor (Writer.make task edge destination partitioner)
  Step.modify fun s => (s.dropWriter name).putWriter name w

/-- A call on a writer; none if there is no writer of this name. -/
def callWriter (name : String) (call : Step (Writer σ α × Executor α) β) (s : Session σ α) :
    Option (Except Fault β × Session σ α) :=
  match s.writer? name with
  | none => none
  | some w =>
      let (result, w, executor) := call (w, s.executor)
      some (result, { s with executor }.putWriter name w)

/-! ## Blocks -/

def block? (s : Session σ α) (name : String) : Option (Block α) := s.blocks.lookup name

def putBlock (s : Session σ α) (name : String) (b : Block α) : Session σ α :=
  { s with blocks := (name, b) :: s.blocks.filter (·.1 ≠ name) }

/-- Takes a name from its block. -/
def forgetBlock (name : String) (s : Session σ α) : Session σ α :=
  { s with blocks := s.blocks.filter (·.1 ≠ name) }

/-- Lets a block go, if there is one of this name. -/
def dropBlock (name : String) (s : Session σ α) : Session σ α :=
  match s.block? name with
  | none => s
  | some b => { s with executor := s.executor.release b }.forgetBlock name

def createBlock (name : String) (id : BlockId) (store : StoreKind) :
    Step (Session σ α) (Block α) := do
  let b ← onExecutor (Executor.onRegistry (Registry.createBlock id store))
  Step.modify fun s => (s.dropBlock name).putBlock name b
  return b

/-- A step that changes the block of this name. -/
def changeBlock (name : String) (x : Step (Medium α) (β × Changed α)) : Step (Session σ α) β := do
  let (answer, changed) ← onMedium x
  Step.modify (·.putBlock name changed.block)
  Step.ofExcept changed.result
  return answer

/-- Gives up the block of this name and deletes the file that it may have. It stays given up when
its file cannot be deleted. -/
def spillBlock (name : String) (b : Block α) : Step (Session σ α) Unit := do
  changeBlock name do return ((), { block := ← b.spill })
  onMedium b.deleteFile

/-- Hands the block of this name over to the registry. If the registry refuses it, it is let go. -/
def registerBlock (name : String) (b : Block α) (store : StoreKind) (reads : UInt32)
    (persistence : Persistence) : Step (Session σ α) Unit := do
  Step.modify (forgetBlock name)
  (onExecutor (Executor.onRegistry (Registry.register b store reads persistence))).onFault fun s =>
    { s with executor := s.executor.release b }

end Session

end ShuffleBuffer
