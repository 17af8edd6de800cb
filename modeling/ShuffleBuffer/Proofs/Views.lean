import ShuffleBuffer.Proofs.Blocks

/-! # What can be seen of a block

Whatever its kind, a block can be seen as a state and a list: the entries that were accepted, in the
order of their writes. The three kinds of block keep them in different ways, but answer every
sequence of calls as this view of them tells. They differ in what they refuse to encode, in whether
they tell sizes, and in how a refused commit is worded. -/

namespace ShuffleBuffer

open Step

variable {α β : Type}

/-- Every encoding fits a frame and is decoded to what was encoded. -/
def Codec.RoundTrips (codec : Codec α) : Prop :=
  ∀ earlier x payload, codec.encode earlier x = .ok payload →
    payload.length < UInt32.size ∧ codec.decode payload = .ok x

namespace Entry

theorem sorted_tally (es : List (Entry α)) : PartitionMap.Sorted (tally es) := by
  induction es using List.reverseRecOn with
  | nil => exact .nil
  | append_singleton es e ih =>
    rw [tally_concat]
    exact PartitionMap.sorted_alter ih _ _

/-- The size of a partition is that of its frames: twelve bytes and the payload each. -/
theorem lookup_tally (es : List (Entry α)) (key : PartitionKey) :
    (tally es).lookup key = if under key es = [] then none
      else some (UInt64.ofNat ((under key es).map fun e => 12 + e.payload.length).sum) := by
  induction es using List.reverseRecOn with
  | nil => rfl
  | append_singleton es e ih =>
    have hbytes : e.frame.bytes.length.toUInt64 = UInt64.ofNat (12 + e.payload.length) :=
      congrArg UInt64.ofNat e.frame.length_bytes
    rw [tally_concat, PartitionSizes.add, PartitionMap.lookup_alter (sorted_tally es), under_append,
      under_singleton]
    by_cases hkey : key = e.key
    · have hsome : under key es ++ [e] ≠ [] := by simp
      rw [if_pos hkey, if_pos hkey.symm, if_neg hsome, ← hkey, ih, List.map_append,
        List.sum_append, UInt64.ofNat_add, hbytes, List.map_singleton, List.sum_singleton]
      split
      · next hnone =>
        rw [hnone]
        rfl
      · rfl
    · rw [if_neg hkey, if_neg (Ne.symm hkey), List.append_nil, ih]

end Entry

namespace Block

/-! ## Calls -/

/-- A call on a block. -/
inductive Operation (α : Type) where
  | write (key : PartitionKey) (x : α)
  | commitPartitions
  | commit
  | spill
  | read (key : PartitionKey)

/-- All calls but a read are there to change the block. -/
def Operation.changes : Operation α → Bool
  | .read _ => false
  | _ => true

/-- What a call answers. -/
inductive Answer (α : Type) where
  | done
  | sizes (sizes : Option PartitionSizes)
  | values (xs : List α)

/-- A step that changes the block. -/
def changing (x : Block α → Step (Medium α) (β × Changed α)) : Step (Block α × Medium α) β :=
  fun (b, m) =>
    match x b m with
    | (.ok (answer, c), m) => (c.result.map fun _ => answer, c.block, m)
    | (.error fault, m) => (.error fault, b, m)

/-- A call on a block. A block that is given up stays so when its file cannot be deleted. -/
def perform : Operation α → Step (Block α × Medium α) (Answer α)
  | .write key x => changing fun b => do return (.done, ← b.write key x)
  | .commitPartitions => changing fun b => do return (.done, ← b.commitPartitions)
  | .commit => changing fun b => do
      let (sizes, c) ← b.commit
      return (.sizes sizes, c)
  | .spill => do
      changing fun b => do return ((), { block := ← b.spill })
      changing fun b => do
        b.deleteFile
        return (.done, { block := b })
  | .read key => fun s => ((s.1.readPartition key s.2).map .values, s)

/-- Calls one after the other, with their answers. -/
def performAll : List (Operation α) → Block α × Medium α →
    List (Except Fault (Answer α)) × (Block α × Medium α)
  | [], s => ([], s)
  | op :: ops, s =>
      let (answer, s) := perform op s
      let (answers, s) := performAll ops s
      (answer :: answers, s)

/-! ## Views -/

/-- What can be seen of a block. -/
structure View (α : Type) where
  state : BlockState := .opened
  accepted : List (Entry α) := []

/-- What a view tells of a call. -/
inductive Reply (α : Type) where
  | done
  /-- Committed with these entries. -/
  | committed (es : List (Entry α))
  | values (xs : List α)
  /-- Not in this state. -/
  | refused (op : Operation α) (state : BlockState)
  /-- The element cannot be encoded. -/
  | unencoded (fault : Fault)

namespace View

/-- One call, where an element that is written now is encoded like this. -/
def step (v : View α) (encode : α → Except Fault Bytes) : Operation α → Reply α × View α
  | .write key x =>
      if v.state = .opened then
        match encode x with
        | .ok payload => (.done, { v with accepted := v.accepted ++ [⟨key, x, payload⟩] })
        | .error fault => (.unencoded fault, v)
      else (.refused (.write key x) v.state, v)
  | .commitPartitions =>
      if v.state = .opened then (.done, v) else (.refused .commitPartitions v.state, v)
  | .commit =>
      if v.state = .opened then (.committed v.accepted, { v with state := .committed })
      else (.refused .commit v.state, v)
  | .spill =>
      if v.state = .opened then (.done, { v with state := .spilled })
      else (.refused .spill v.state, v)
  | .read key =>
      if v.state = .committed then (.values ((Entry.under key v.accepted).map Entry.value), v)
      else (.refused (.read key) v.state, v)

/-- How many elements a call offers to the codec. -/
def offered (v : View α) : Operation α → Nat
  | .write .. => if v.state = .opened then 1 else 0
  | _ => 0

/-- Calls one after the other, where `encode` is told how many elements were offered before. -/
def run (encode : Nat → α → Except Fault Bytes) :
    Nat → View α → List (Operation α) → List (Reply α) × View α
  | _, v, [] => ([], v)
  | n, v, op :: ops =>
      let (reply, v') := v.step (encode n) op
      let (replies, v') := run encode (n + v.offered op) v' ops
      (reply :: replies, v')

end View

/-! ## Kinds -/

inductive Kind where
  | values
  | encoded
  | file

namespace Kind

def keepsSizes : Kind → Bool
  | values => false
  | encoded | file => true

/-- A new block of this kind. -/
def fresh (kind : Kind) (id : BlockId) (store : StoreKind) : Step (Medium α) (Block α) :=
  match kind with
  | values => pure (ofValues id store)
  | encoded => pure (ofEncoded id store)
  | file => ofFile id store

/-- The file of a block of this kind. -/
def location (kind : Kind) (id : BlockId) : Option String :=
  match kind with
  | values | encoded => none
  | file => some (fileName id)

/-- What a block says that it cannot do. In memory a commit seals the partitions first, and this is
what is refused. -/
def request : Kind → Operation α → BlockRequest
  | _, .write .. => .write
  | _, .commitPartitions => .commitPartitions
  | file, .commit => .commit
  | values, .commit | encoded, .commit => .commitPartitions
  | _, .spill => .spill
  | _, .read _ => .read

/-- The answer of a block of this kind and name. -/
def answer (kind : Kind) (id : BlockId) : Reply α → Except Fault (Answer α)
  | .done => .ok .done
  | .committed es => .ok (.sizes (if kind.keepsSizes then some (Entry.tally es) else none))
  | .values xs => .ok (.values xs)
  | .refused op state => .error (.blockState (kind.request op) id state)
  | .unencoded fault => .error fault

end Kind

/-! ## A block shows its view -/

/-- A block of this kind and name that is seen like this. -/
structure Shows (kind : Kind) (id : BlockId) (codec : Codec α) (v : View α)
    (s : Block α × Medium α) : Prop where
  named : s.1.id = id
  sized : s.1.keepsSizes = kind.keepsSizes
  located : s.1.location = kind.location id
  coded : s.2.codec = codec
  works : s.2.dir.Works
  restores : kind.keepsSizes = true → ∀ e ∈ v.accepted, codec.Restores e
  body : match v.state with
    | .opened => s.1.Holds s.2.dir v.accepted
    | .committed => s.1.Stores s.2.dir v.accepted
    | .spilled => s.1.state = .spilled

variable {kind : Kind} {id : BlockId} {codec : Codec α} {v : View α} {b : Block α} {m : Medium α}
  {s : Block α × Medium α} {encode : α → Except Fault Bytes}

theorem Stores.committed {d : SpillDir} {es : List (Entry α)} (h : Stores d es b) :
    b.state = .committed := by
  cases h <;> rfl

theorem Shows.state (h : Shows kind id codec v s) : s.1.state = v.state := by
  have hbody := h.body
  split at hbody
  · next hstate => exact hbody.opened.trans hstate.symm
  · next hstate => exact hbody.committed.trans hstate.symm
  · next hstate => exact hbody.trans hstate.symm

theorem Shows.holds (h : Shows kind id codec v s) (hstate : v.state = .opened) :
    s.1.Holds s.2.dir v.accepted := by
  have hbody := h.body
  rwa [hstate] at hbody

theorem Shows.stores (h : Shows kind id codec v s) (hstate : v.state = .committed) :
    s.1.Stores s.2.dir v.accepted := by
  have hbody := h.body
  rwa [hstate] at hbody

theorem changing_ok {x : Block α → Step (Medium α) (β × Changed α)} {answer : β} {c : Changed α}
    {m' : Medium α} (h : x b m = (.ok (answer, c), m')) (hok : c.result = .ok ()) :
    changing x (b, m) = (.ok answer, c.block, m') := by
  simp only [changing, h, hok]
  rfl

theorem changing_error {x : Block α → Step (Medium α) (β × Changed α)} {fault : Fault}
    {m' : Medium α} (h : x b m = (.error fault, m')) :
    changing x (b, m) = (.error fault, b, m') := by
  simp only [changing, h]

theorem require_error {request : BlockRequest} {state : BlockState} (h : b.state ≠ state) :
    b.require request state = .error (.blockState request b.id b.state) := by
  rw [require, if_neg h]

/-- A block that is not open refuses every change and stays as it is. -/
theorem perform_refused (hid : b.id = id) (hlocation : b.location = kind.location id)
    (hstate : b.state ≠ .opened) {op : Operation α} (hop : op.changes = true) (m : Medium α) :
    perform op (b, m) = (.error (.blockState (kind.request op) id b.state), b, m) := by
  have hrequire (request : BlockRequest) :
      Step.ofExcept (b.require request .opened) m =
        (.error (.blockState request id b.state), m) := by
    rw [Step.ofExcept, require_error hstate, hid]
  cases op with
  | write key x =>
    rw [perform]
    refine changing_error ?_
    exact bind_error (bind_error (hrequire .write) _) _
  | commitPartitions =>
    rw [perform]
    refine changing_error ?_
    exact bind_error (bind_error (hrequire .commitPartitions) _) _
  | spill =>
    refine bind_error (changing_error ?_) _
    exact bind_error (bind_error (hrequire .spill) _) _
  | read key => cases hop
  | commit =>
    rw [perform]
    refine changing_error ?_
    refine bind_error ?_ _
    obtain ⟨_, store, state, body⟩ := b
    cases body with
    | values pending sealed =>
      cases kind with
      | file => cases hlocation
      | values | encoded => exact bind_error (bind_error (hrequire .commitPartitions) _) _
    | encoded pending sealed sizes =>
      cases kind with
      | file => cases hlocation
      | values | encoded => exact bind_error (bind_error (hrequire .commitPartitions) _) _
    | file handle sizes checksum =>
      cases kind with
      | values | encoded => cases hlocation
      | file => exact bind_error (hrequire .commit) _

/-! ## Calls on an open block -/

theorem changing_yields {x : Block α → Step (Medium α) (β × Changed α)}
    {Q : β → Block α × Medium α → Prop}
    (h : (x s.1).Yields s.2 fun r m' => r.2.result = .ok () ∧ Q r.1 (r.2.block, m')) :
    (changing x).Yields s Q := by
  obtain ⟨⟨answer, c⟩, m', hx, hok, hq⟩ := h
  exact ⟨answer, (c.block, m'), changing_ok hx hok, hq⟩

/-- The same block, later, is seen as it is then. -/
theorem Shows.later (h : Shows kind id codec v s) {s' : Block α × Medium α} {v' : View α}
    (hlike : s.1.Like s'.1) (hkept : Medium.Kept s.2 s'.2)
    (hrestores : kind.keepsSizes = true → ∀ e ∈ v'.accepted, codec.Restores e)
    (hbody : match v'.state with
      | .opened => s'.1.Holds s'.2.dir v'.accepted
      | .committed => s'.1.Stores s'.2.dir v'.accepted
      | .spilled => s'.1.state = .spilled) : Shows kind id codec v' s' :=
  ⟨hlike.id.trans h.named, hlike.keepsSizes.trans h.sized, hlike.location.trans h.located,
    hkept.codec.trans h.coded, hkept.dir.refusals.trans h.works, hrestores, hbody⟩

theorem Shows.write (h : Shows kind id codec v s) (hstate : v.state = .opened) (e : Entry α)
    (hmade : kind.keepsSizes = true →
      codec.encode s.2.encodings e.value = .ok e.payload ∧ codec.Restores e) :
    (perform (.write e.key e.value)).Yields s fun answer s' => answer = .done ∧
      Shows kind id codec { v with accepted := v.accepted ++ [e] } s' ∧
      (kind.keepsSizes = true → s'.2.encodings = s.2.encodings + 1) := by
  rw [perform]
  refine changing_yields (Yields.bind (write_entry (h.holds hstate) e fun hsized => ?_) ?_)
  · rw [h.coded]
    obtain ⟨hencode, hrestores⟩ := hmade (h.sized ▸ hsized)
    exact ⟨hencode, hrestores.1⟩
  · rintro c m' ⟨hok, hlike, hkept, hencodings, hholds⟩
    refine Yields.pure ⟨hok, rfl, h.later hlike hkept (fun hsized other hother => ?_) ?_,
      fun hsized => ?_⟩
    · rcases List.mem_append.mp hother with hold | hnew
      · exact h.restores hsized other hold
      · rw [List.mem_singleton.mp hnew]
        exact (hmade hsized).2
    · simpa only [hstate] using hholds
    · rw [hencodings, h.sized, if_pos hsized]

theorem Shows.commitPartitions (h : Shows kind id codec v s) (hstate : v.state = .opened) :
    (perform .commitPartitions).Yields s fun answer s' => answer = .done ∧
      Shows kind id codec v s' ∧ s'.2.encodings = s.2.encodings := by
  have hholds := h.holds hstate
  rw [perform]
  refine changing_yields (Yields.bind (commitPartitions_yields hholds) ?_)
  rintro c m' ⟨hok, hlike, hkept, hencodings, hholds'⟩
  exact Yields.pure ⟨hok, rfl,
    h.later hlike hkept h.restores (by simpa only [hstate] using hholds'), hencodings⟩

theorem Shows.commit (h : Shows kind id codec v s) (hstate : v.state = .opened) :
    (perform .commit).Yields s fun answer s' =>
      answer = .sizes (if kind.keepsSizes then some (Entry.tally v.accepted) else none) ∧
      Shows kind id codec { v with state := .committed } s' ∧ s'.2.encodings = s.2.encodings := by
  have hholds := h.holds hstate
  rw [perform]
  refine changing_yields (Yields.bind (commit_yields hholds) ?_)
  rintro ⟨sizes, c⟩ m' ⟨hsizes, hok, hlike, hkept, hencodings, hstores⟩
  rw [h.sized] at hsizes
  exact Yields.pure ⟨hok, congrArg Answer.sizes hsizes,
    h.later hlike hkept h.restores hstores, hencodings⟩

/-- Giving up an open block lets its file go, if it has one. -/
theorem Shows.spill (h : Shows kind id codec v s) (hstate : v.state = .opened) :
    (perform .spill).Yields s fun answer s' => answer = .done ∧
      Shows kind id codec { v with state := .spilled } s' ∧ s'.2.encodings = s.2.encodings := by
  obtain ⟨b, m⟩ := s
  cases h.holds hstate with
  | @values id store pending sealed hsorted hgather =>
    exact ⟨_, _, rfl, rfl, h.later ⟨rfl, rfl, rfl, rfl⟩ (Medium.Kept.refl m) h.restores rfl, rfl⟩
  | @encoded id store frames runs hsorted hgather =>
    exact ⟨_, _, rfl, rfl, h.later ⟨rfl, rfl, rfl, rfl⟩ (Medium.Kept.refl m) h.restores rfl, rfl⟩
  | @file id store handle checksum hworks hname happends =>
    obtain ⟨-, hwrites⟩ := OpenFile.flush_file handle m.dir
    have hfound : (handle.flush m.dir).2.names.lookup (fileName id) = some handle.file := by
      rw [hwrites.names]
      exact hname
    have hremoved := SpillDir.remove_yields (hwrites.refusals.trans hworks) hfound
    have hkept := hwrites.kept.trans (SpillDir.remove_kept (fileName id) (handle.flush m.dir).2)
    have hdelete : Yields (Medium.onDir (SpillDir.remove (fileName id)))
        { m with dir := (handle.flush m.dir).2 } fun _ m' =>
          m' = { m with dir := (SpillDir.remove (fileName id) (handle.flush m.dir).2).2 } :=
      Yields.within ⟨(), _, hremoved, by rw [hremoved]⟩
    rw [perform]
    refine Yields.bind (M := fun _ s' => s' = (⟨id, store, .spilled, .file none [] {}⟩,
      { m with dir := (handle.flush m.dir).2 })) ⟨(), _, rfl, rfl⟩ ?_
    rintro _ _ rfl
    refine changing_yields (Yields.bind hdelete ?_)
    rintro _ _ rfl
    exact Yields.pure ⟨rfl, rfl, h.later ⟨rfl, rfl, rfl, rfl⟩ ⟨rfl, hkept⟩ h.restores rfl, rfl⟩

/-- An element that cannot be encoded leaves no trace but that it was offered. -/
theorem Shows.write_unencoded (h : Shows kind id codec v s) (hstate : v.state = .opened)
    (hsized : kind.keepsSizes = true) {key : PartitionKey} {x : α} {fault : Fault}
    (hencode : codec.encode s.2.encodings x = .error fault) :
    perform (.write key x) s =
      (.error fault, s.1, { s.2 with encodings := s.2.encodings + 1 }) := by
  obtain ⟨b, m⟩ := s
  have hframe : Medium.frame key x m =
      (.error fault, { m with encodings := m.encodings + 1 }) := by
    have hx : Medium.encode x m = (.error fault, { m with encodings := m.encodings + 1 }) := by
      rw [Medium.encode, show m.codec = codec from h.coded, hencode]
    exact bind_error hx _
  rw [perform]
  exact changing_error (bind_error
    (write_refused (h.holds hstate) (h.sized.trans hsized) hframe) _)

theorem Shows.read (h : Shows kind id codec v s) (hstate : v.state = .committed)
    (key : PartitionKey) :
    perform (.read key) s =
      (.ok (.values ((Entry.under key v.accepted).map Entry.value)), s) := by
  have hread : s.1.readPartition key s.2 = .ok ((Entry.under key v.accepted).map Entry.value) := by
    refine readPartition_eq (h.stores hstate) (fun hsized => ?_) key
    rw [h.coded]
    exact h.restores (h.sized ▸ hsized)
  rw [perform]
  dsimp only
  rw [hread]
  rfl

/-- A block that is not committed cannot be read. -/
theorem Shows.read_refused (h : Shows kind id codec v s) (hstate : v.state ≠ .committed)
    (key : PartitionKey) :
    perform (.read key) s = (.error (.blockState .read id v.state), s) := by
  have hrequire : s.1.require .read .committed = .error (.blockState .read id v.state) := by
    rw [require_error (h.state ▸ hstate), h.named, h.state]
  have hread : s.1.readPartition key s.2 = .error (.blockState .read id v.state) := by
    rw [readPartition, hrequire]
    rfl
  rw [perform]
  dsimp only
  rw [hread]
  rfl

/-- A call that changes something and is refused. -/
theorem Shows.refused (h : Shows kind id codec v s) (hstate : v.state ≠ .opened)
    {op : Operation α} (hop : op.changes = true) :
    perform op s = (.error (.blockState (kind.request op) id v.state), s) := by
  have hrefused := perform_refused h.named h.located (h.state ▸ hstate) hop s.2
  rwa [h.state] at hrefused

/-! ## Runs -/

variable {encode : Nat → α → Except Fault Bytes} {n : Nat}

theorem View.offered_of_ne (hstate : v.state ≠ .opened) (op : Operation α) : v.offered op = 0 := by
  cases op with
  | write key x => exact if_neg hstate
  | commitPartitions | commit | spill | read => rfl

theorem View.step_refused (hstate : v.state ≠ .opened) (encode : α → Except Fault Bytes)
    {op : Operation α} (hop : op.changes = true) :
    v.step encode op = (.refused op v.state, v) := by
  cases op with
  | write | commitPartitions | commit | spill => exact if_neg hstate
  | read key => cases hop

/-- What a call makes of a block is what it makes of its view. -/
structure Matches (kind : Kind) (id : BlockId) (codec : Codec α) (n : Nat) (v : View α)
    (op : Operation α) (told : Reply α × View α)
    (outcome : Except Fault (Answer α) × (Block α × Medium α)) : Prop where
  answer : outcome.1 = kind.answer id told.1
  after : Shows kind id codec told.2 outcome.2
  count : kind.keepsSizes = true → n + v.offered op = outcome.2.2.encodings

theorem matches_refused (h : Shows kind id codec v s) (hstate : v.state ≠ .opened)
    {op : Operation α} (hop : op.changes = true) (encode : α → Except Fault Bytes)
    (hcount : kind.keepsSizes = true → n = s.2.encodings) :
    Matches kind id codec n v op (v.step encode op) (perform op s) := by
  rw [View.step_refused hstate encode hop, h.refused hstate hop]
  refine ⟨rfl, h, fun hkeeps => ?_⟩
  rw [View.offered_of_ne hstate, hcount hkeeps]
  rfl

theorem matches_write (h : Shows kind id codec v s) (hcodec : codec.RoundTrips)
    (hstate : v.state = .opened) {key : PartitionKey} {x : α}
    (hsized : kind.keepsSizes = true → encode = codec.encode ∧ n = s.2.encodings)
    (hpasses : kind.keepsSizes = false →
      ∀ fault, (v.step (encode n) (.write key x)).1 ≠ .unencoded fault) :
    Matches kind id codec n v (.write key x) (v.step (encode n) (.write key x))
      (perform (.write key x) s) := by
  have hoffered : v.offered (.write key x) = 1 := if_pos hstate
  cases hx : encode n x with
  | ok payload =>
    have hstep : v.step (encode n) (.write key x) =
        (.done, { v with accepted := v.accepted ++ [⟨key, x, payload⟩] }) := by
      rw [View.step, if_pos hstate, hx]
    have hmade (hkeeps : kind.keepsSizes = true) :
        codec.encode s.2.encodings x = .ok payload ∧ codec.Restores ⟨key, x, payload⟩ := by
      obtain ⟨rfl, rfl⟩ := hsized hkeeps
      exact ⟨hx, hcodec _ _ _ hx⟩
    obtain ⟨_, s', hperform, rfl, hshows, hcount⟩ := h.write hstate ⟨key, x, payload⟩ hmade
    rw [hstep, show perform (.write key x) s = _ from hperform]
    refine ⟨rfl, hshows, fun hkeeps => ?_⟩
    rw [hoffered, (hsized hkeeps).2, hcount hkeeps]
  | error fault =>
    have hstep : v.step (encode n) (.write key x) = (.unencoded fault, v) := by
      rw [View.step, if_pos hstate, hx]
    rw [hstep] at hpasses
    have hkeeps : kind.keepsSizes = true := by
      by_contra hno
      exact hpasses (Bool.eq_false_iff.mpr hno) fault rfl
    obtain ⟨rfl, rfl⟩ := hsized hkeeps
    rw [hstep, h.write_unencoded hstate hkeeps hx]
    exact ⟨rfl, ⟨h.named, h.sized, h.located, h.coded, h.works, h.restores, h.body⟩, fun _ => by rw [hoffered]⟩

/-- One call is answered as the view tells. -/
theorem perform_matches (h : Shows kind id codec v s) (hcodec : codec.RoundTrips)
    (op : Operation α)
    (hsized : kind.keepsSizes = true → encode = codec.encode ∧ n = s.2.encodings)
    (hpasses : kind.keepsSizes = false → ∀ fault, (v.step (encode n) op).1 ≠ .unencoded fault) :
    Matches kind id codec n v op (v.step (encode n) op) (perform op s) := by
  have hcount (hkeeps : kind.keepsSizes = true) : n = s.2.encodings := (hsized hkeeps).2
  by_cases hstate : v.state = .opened
  · cases op with
    | write key x => exact matches_write h hcodec hstate hsized hpasses
    | commitPartitions =>
      obtain ⟨_, s', hperform, rfl, hshows, hsame⟩ := h.commitPartitions hstate
      rw [hperform, View.step, if_pos hstate]
      exact ⟨rfl, hshows, fun hkeeps => (hcount hkeeps).trans hsame.symm⟩
    | commit =>
      obtain ⟨_, s', hperform, rfl, hshows, hsame⟩ := h.commit hstate
      rw [hperform, View.step, if_pos hstate]
      exact ⟨rfl, hshows, fun hkeeps => (hcount hkeeps).trans hsame.symm⟩
    | spill =>
      obtain ⟨_, s', hperform, rfl, hshows, hsame⟩ := h.spill hstate
      rw [hperform, View.step, if_pos hstate]
      exact ⟨rfl, hshows, fun hkeeps => (hcount hkeeps).trans hsame.symm⟩
    | read key =>
      have hother : v.state ≠ .committed := by
        rw [hstate]
        nofun
      rw [h.read_refused hother key, View.step, if_neg hother]
      exact ⟨rfl, h, hcount⟩
  · cases op with
    | read key =>
      by_cases hcommitted : v.state = .committed
      · rw [h.read hcommitted key, View.step, if_pos hcommitted]
        exact ⟨rfl, h, hcount⟩
      · rw [h.read_refused hcommitted key, View.step, if_neg hcommitted]
        exact ⟨rfl, h, hcount⟩
    | write | commitPartitions | commit | spill => exact matches_refused h hstate rfl _ hcount

/-- All calls are answered as the view tells. -/
theorem performAll_matches (hcodec : codec.RoundTrips) (ops : List (Operation α))
    (h : Shows kind id codec v s)
    (hsized : kind.keepsSizes = true → encode = codec.encode ∧ n = s.2.encodings)
    (hpasses : kind.keepsSizes = false → ∀ fault, .unencoded fault ∉ (v.run encode n ops).1) :
    (performAll ops s).1 = (View.run encode n v ops).1.map (kind.answer id) ∧
      Shows kind id codec (View.run encode n v ops).2 (performAll ops s).2 := by
  induction ops generalizing n v s with
  | nil => exact ⟨rfl, h⟩
  | cons op ops ih =>
    have hfirst := perform_matches (n := n) h hcodec op hsized fun hplain fault hfault =>
      hpasses hplain fault (hfault ▸ List.mem_cons_self)
    have hrest := ih (n := n + v.offered op) hfirst.after
      (fun hkeeps => ⟨(hsized hkeeps).1, hfirst.count hkeeps⟩)
      (fun hplain fault hfault => hpasses hplain fault (List.mem_cons_of_mem _ hfault))
    rw [performAll, View.run, List.map_cons]
    exact ⟨by rw [← hfirst.answer, ← hrest.1], hrest.2⟩

/-- Sealing the partitions somewhere among other calls changes none of their answers. -/
theorem View.run_insert (encode : Nat → α → Except Fault Bytes) (n : Nat) (v : View α)
    (before after : List (Operation α)) :
    (v.run encode n (before ++ .commitPartitions :: after)).1.eraseIdx before.length =
      (v.run encode n (before ++ after)).1 ∧
    (v.run encode n (before ++ .commitPartitions :: after)).2 =
      (v.run encode n (before ++ after)).2 := by
  induction before generalizing n v with
  | nil =>
    obtain ⟨reply, hstep⟩ : ∃ reply, v.step (encode n) .commitPartitions = (reply, v) := by
      rw [View.step]
      split
      · exact ⟨_, rfl⟩
      · exact ⟨_, rfl⟩
    rw [List.nil_append, View.run, hstep]
    exact ⟨rfl, rfl⟩
  | cons op before ih =>
    have hrest := ih (n + v.offered op) (v.step (encode n) op).2
    rw [List.cons_append, View.run, List.cons_append, View.run]
    exact ⟨congrArg _ hrest.1, hrest.2⟩

/-! ## Kinds of block agree -/

/-- A new block has accepted nothing. -/
theorem fresh_yields (hworks : m.dir.Works) (hformed : m.dir.WellFormed)
    (hname : SpillDir.isFileName (fileName id) = true) (kind : Kind) (store : StoreKind) :
    (kind.fresh id store).Yields m fun b m' =>
      Shows kind id m.codec {} (b, m') ∧ m'.encodings = m.encodings := by
  cases kind with
  | values =>
    exact Yields.pure ⟨⟨rfl, rfl, rfl, rfl, hworks, nofun, holds_ofValues m.dir id store⟩, rfl⟩
  | encoded =>
    exact Yields.pure ⟨⟨rfl, rfl, rfl, rfl, hworks, fun _ => nofun, holds_ofEncoded m.dir id store⟩, rfl⟩
  | file =>
    obtain ⟨b, m', hmake, hid, -, hlocation, hkeeps, hkept, hcount, hholds⟩ :=
      ofFile_yields hworks hname hformed store
    exact ⟨b, m', hmake, ⟨hid, hkeeps, hlocation, hkept.codec, hkept.dir.refusals.trans hworks,
      fun _ => nofun, hholds⟩, hcount⟩

theorem View.run_passes (hall : ∀ n x, ∃ payload, encode n x = .ok payload) (n : Nat) (v : View α)
    (ops : List (Operation α)) (fault : Fault) : .unencoded fault ∉ (v.run encode n ops).1 := by
  induction ops generalizing n v with
  | nil => exact List.not_mem_nil
  | cons op ops ih =>
    rw [View.run, List.mem_cons, not_or]
    refine ⟨fun hfault => ?_, ih _ _⟩
    cases op with
    | write key x =>
      obtain ⟨payload, hpayload⟩ := hall n x
      rw [View.step, hpayload] at hfault
      split at hfault <;> cases hfault
    | commitPartitions | commit | spill | read =>
      rw [View.step] at hfault
      split at hfault <;> cases hfault

/-- Whatever calls a new block has been given, it shows some view of them, and all further calls too
are answered as this tells. -/
theorem exists_view (hcodec : codec.RoundTrips) (h : Shows kind id codec v s)
    (ops : List (Operation α)) :
    ∃ encode : Nat → α → Except Fault Bytes,
      Shows kind id codec (v.run encode s.2.encodings ops).2 (performAll ops s).2 ∧
      ∀ ops, (performAll ops s).1 = (v.run encode s.2.encodings ops).1.map (kind.answer id) := by
  cases hkeeps : kind.keepsSizes with
  | true =>
    have hsized : kind.keepsSizes = true →
        codec.encode = codec.encode ∧ s.2.encodings = s.2.encodings := fun _ => ⟨rfl, rfl⟩
    have hmatches (ops : List (Operation α)) := performAll_matches hcodec ops h hsized
      (fun hplain => absurd (hkeeps.symm.trans hplain) nofun)
    exact ⟨codec.encode, (hmatches ops).2, fun ops => (hmatches ops).1⟩
  | false =>
    have hpasses (ops : List (Operation α)) : kind.keepsSizes = false → ∀ fault,
        .unencoded fault ∉ (v.run (fun _ _ => .ok []) s.2.encodings ops).1 :=
      fun _ => View.run_passes (fun _ _ => ⟨[], rfl⟩) _ _ _
    have hmatches (ops : List (Operation α)) := performAll_matches hcodec ops h
      (fun hsized => absurd (hkeeps.symm.trans hsized) nofun) (hpasses ops)
    exact ⟨fun _ _ => .ok [], (hmatches ops).2, fun ops => (hmatches ops).1⟩

/-- Blocks of all kinds answer every sequence of calls as one view tells: that which encodes like the
codec and, for a block that encodes nothing, any that lets all elements pass. So two kinds agree
wherever the codec does. A block that is not open refuses every change and stays as it is, and so it
does when an element cannot be encoded. Sealing the partitions is never seen by other calls, and
what a commit tells of a key is the length of its frames. -/
theorem performAll_simulates (hcodec : m.codec.RoundTrips) (hworks : m.dir.Works)
    (hformed : m.dir.WellFormed) (hname : SpillDir.isFileName (fileName id) = true)
    (store : StoreKind) (kind : Kind) :
    ∃ b₀ m₀, kind.fresh id store m = (.ok b₀, m₀) ∧
      (∀ encode (ops : List (Operation α)),
        (kind.keepsSizes = true → encode = m.codec.encode) →
        (kind.keepsSizes = false →
          ∀ fault, .unencoded fault ∉ (View.run encode m.encodings {} ops).1) →
        (performAll ops (b₀, m₀)).1 =
          (View.run encode m.encodings {} ops).1.map (kind.answer id) ∧
        (performAll ops (b₀, m₀)).2.1.state = (View.run encode m.encodings {} ops).2.state) ∧
      (∀ ops rest : List (Operation α),
        let s := (performAll ops (b₀, m₀)).2
        (∀ op, op.changes = true → s.1.state ≠ .opened →
          perform op s = (.error (.blockState (kind.request op) id s.1.state), s)) ∧
        (∀ key x fault, kind.keepsSizes = true → s.1.state = .opened →
          m.codec.encode s.2.encodings x = .error fault →
          perform (.write key x) s =
            (.error fault, s.1, { s.2 with encodings := s.2.encodings + 1 })) ∧
        (performAll (ops ++ .commitPartitions :: rest) (b₀, m₀)).1.eraseIdx ops.length =
          (performAll (ops ++ rest) (b₀, m₀)).1) ∧
      ∀ (es : List (Entry α)) key, (Entry.tally es).lookup key =
        if Entry.under key es = [] then none
        else some (UInt64.ofNat ((Entry.under key es).map fun e => 12 + e.payload.length).sum) := by
  obtain ⟨b₀, m₀, hfresh, hshows, hcount⟩ :=
    fresh_yields hworks hformed hname kind store
  refine ⟨b₀, m₀, hfresh, fun encode ops hsized hpasses => ?_, fun ops rest => ?_,
    Entry.lookup_tally⟩
  · obtain ⟨hanswers, hend⟩ := performAll_matches hcodec ops hshows
      (fun hkeeps => ⟨hsized hkeeps, hcount.symm⟩) hpasses
    exact ⟨hanswers, hend.state⟩
  · intro s
    obtain ⟨encode, hend, hanswers⟩ := exists_view hcodec hshows ops
    refine ⟨fun op hop hstate => ?_, fun key x fault hkeeps hstate hencode => ?_, ?_⟩
    · rw [hend.state] at hstate ⊢
      exact hend.refused hstate hop
    · exact hend.write_unencoded (hend.state ▸ hstate) hkeeps hencode
    · rw [hanswers, hanswers, List.eraseIdx_map, (View.run_insert encode _ _ ops rest).1]

/-- A file block whose second element cannot be encoded. -/
theorem performAll_simulates_failing :
    let codec := (Codec.json : Codec Bool).failingEncode 2
    let m : Medium Bool := { codec }
    let id : BlockId := ⟨"e-t"⟩
    codec.RoundTrips ∧ m.dir.Works ∧ m.dir.WellFormed ∧
      SpillDir.isFileName (fileName id) = true ∧
      ∃ b₀ m₀, ofFile id .localFile m = (.ok b₀, m₀) ∧
        (performAll [.write 1 true, .write 1 false, .commitPartitions, .write 0 false,
          .write 1 true, .commit, .read 1, .write 1 true, .commit] (b₀, m₀)).1 =
        [.ok .done, .error .codec, .ok .done, .ok .done, .ok .done,
          .ok (.sizes (some [(0, 17), (1, 32)])), .ok (.values [true, true]),
          .error (.blockState .write id .committed), .error (.blockState .commit id .committed)] := by
  intro codec m id
  have hcodec : codec.RoundTrips := by
    intro earlier x payload hencode
    dsimp only [codec, Codec.failingEncode] at hencode
    split at hencode
    · cases hencode
    · cases hencode
      cases x with
      | true => exact ⟨by decide, by decide +kernel⟩
      | false => exact ⟨by decide, by decide +kernel⟩
  have hname : SpillDir.isFileName (fileName id) = true := by decide +kernel
  have hformed : m.dir.WellFormed := .of_unnamed rfl
  obtain ⟨b₀, m₀, hfresh, hanswers, -, -⟩ :=
    performAll_simulates (m := m) hcodec rfl hformed hname .localFile .file
  refine ⟨hcodec, rfl, hformed, hname, b₀, m₀, hfresh, ?_⟩
  rw [(hanswers codec.encode _ (fun _ => rfl) nofun).1]
  rfl

end Block

end ShuffleBuffer
