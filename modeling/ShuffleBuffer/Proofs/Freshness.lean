import ShuffleBuffer.Proofs.Leftovers
import ShuffleBuffer.Proofs.ReadBack

/-! # Keys of their own

A partitioner with dedicated keys counts the elements, and the count is a word of 32 bits. So the
keys are distinct as long as they are no more than there are such words, and then every element is
read back alone. After the last word the count starts again from 0, and elements from then on share
the partitions of the first ones. -/

namespace ShuffleBuffer

open Estimate Step

variable {σ α : Type}

namespace Partitioner

/-! ## Elements under distinct keys -/

section Distinct

variable (p : Partitioner σ α) (xs : List α)

theorem length_keys : (p.keys xs).length = xs.length := by
  induction xs generalizing p with
  | nil => rfl
  | cons x xs ih => rw [keys, List.length_cons, List.length_cons, ih]

theorem zip_keys_fst : ((p.keys xs).zip xs).map Prod.fst = p.keys xs :=
  List.map_fst_zip (Nat.le_of_eq (p.length_keys xs))

/-- As many elements lie under a key as were given it. -/
theorem length_part (key : PartitionKey) : (p.part key xs).length = (p.keys xs).count key := by
  have hkeys : (p.keys xs).count key =
      ((p.keys xs).zip xs).countP fun entry => decide (entry.1 = key) := by
    conv_lhs => rw [← p.zip_keys_fst xs, List.count, List.countP_map]
    rfl
  rw [part, List.length_map, hkeys, List.countP_eq_length_filter]

/-- The keys are distinct exactly if nowhere two elements lie under one. -/
theorem nodup_keys_iff_part : (p.keys xs).Nodup ↔ ∀ key, (p.part key xs).length ≤ 1 := by
  rw [List.nodup_iff_count_le_one]
  exact forall_congr' fun key => by rw [length_part]

variable {p xs}

theorem part_eq_nil {key : PartitionKey} (h : key ∉ p.keys xs) : p.part key xs = [] := by
  rw [← List.length_eq_zero_iff, length_part, List.count_eq_zero_of_not_mem h]

theorem mem_part {i : Nat} {key : PartitionKey} {x : α} (hkey : (p.keys xs)[i]? = some key)
    (hx : xs[i]? = some x) : x ∈ p.part key xs := by
  refine List.mem_map.mpr ⟨(key, x), List.mem_filter.mpr ⟨?_, decide_eq_true rfl⟩, rfl⟩
  exact List.mem_of_getElem? (List.getElem?_zip_eq_some.mpr ⟨hkey, hx⟩)

/-- Under distinct keys every element lies alone. -/
theorem part_eq_singleton (h : (p.keys xs).Nodup) {i : Nat} {key : PartitionKey} {x : α}
    (hkey : (p.keys xs)[i]? = some key) (hx : xs[i]? = some x) : p.part key xs = [x] := by
  have hmem := mem_part hkey hx
  have hone : (p.part key xs).length = 1 := Nat.le_antisymm
    ((p.nodup_keys_iff_part xs).mp h key) (List.length_pos_of_mem hmem)
  obtain ⟨y, hy⟩ := List.length_eq_one_iff.mp hone
  rw [hy, List.mem_singleton] at hmem
  rw [hy, hmem]

end Distinct

/-! ## The keys that are counted -/

/-- The count is a word, so it starts again after the last of them. -/
theorem keys_dedicatedKeys (xs : List α) :
    (dedicatedKeys (α := α)).keys xs = (List.range xs.length).map UInt32.ofNat := by
  -- the count may stand anywhere when the next element comes
  have hfrom : ∀ (start : Nat), ({ dedicatedKeys (α := α) with
      state := UInt32.ofNat start }).keys xs =
        (List.range' start xs.length).map UInt32.ofNat := by
    induction xs with
    | nil => exact fun _ => rfl
    | cons x xs ih =>
      intro start
      have hnext : UInt32.ofNat start + 1 = UInt32.ofNat (start + 1) := by
        rw [UInt32.ofNat_add]
        rfl
      have hrest := ih (start + 1)
      rw [← hnext] at hrest
      rw [List.length_cons, List.range'_succ, List.map_cons, ← hrest]
      rfl
  rw [List.range_eq_range']
  exact hfrom 0

/-- Two places have one key if the number of words lies between them. -/
theorem nodup_keys_iff (xs : List α) :
    (dedicatedKeys.keys xs).Nodup ↔ xs.length ≤ 2 ^ 32 := by
  rw [keys_dedicatedKeys]
  constructor
  · intro h
    by_contra hlong
    -- the first element and the one that comes after all words
    have hsame : UInt32.ofNat 0 = UInt32.ofNat (2 ^ 32) := by decide
    have hzero := List.inj_on_of_nodup_map h (List.mem_range.mpr (by omega))
      (List.mem_range.mpr (by omega)) hsame
    exact absurd hzero (by decide)
  · intro h
    refine List.Nodup.map_on (fun i hi j hj hsame => ?_) List.nodup_range
    have hi : i < UInt32.size := Nat.lt_of_lt_of_le (List.mem_range.mp hi) h
    have hj : j < UInt32.size := Nat.lt_of_lt_of_le (List.mem_range.mp hj) h
    have hwords := congrArg UInt32.toNat hsame
    rwa [UInt32.toNat_ofNat_of_lt' hi, UInt32.toNat_ofNat_of_lt' hj] at hwords

/-- A key has the elements whose places are the key, up to multiples of the number of words. -/
theorem part_dedicatedKeys (key : PartitionKey) (xs : List α) :
    dedicatedKeys.part key xs =
      (xs.zipIdx.filter fun entry => entry.2 % 2 ^ 32 = key.toNat).map Prod.fst := by
  have hzip : (dedicatedKeys.keys xs).zip xs =
      xs.zipIdx.map fun entry => (UInt32.ofNat entry.2, entry.1) := by
    rw [keys_dedicatedKeys, List.zipIdx_eq_zip_range', List.range_eq_range', ← List.zip_swap,
      List.zip_map_right, List.map_map]
    rfl
  have hword (n : Nat) : UInt32.ofNat n = key ↔ n % 2 ^ 32 = key.toNat := by
    rw [← UInt32.toNat_inj, UInt32.toNat_ofNat']
  rw [part, hzip, List.filter_map, List.map_map]
  simp only [Function.comp_def, hword]

theorem getElem?_keys_dedicatedKeys {xs : List α} {i : Nat} (hi : i < xs.length) :
    (dedicatedKeys.keys xs)[i]? = some (UInt32.ofNat i) := by
  rw [keys_dedicatedKeys, List.getElem?_map, List.getElem?_range hi]
  rfl

/-- Up to as many elements as there are words, each lies alone under its place. -/
theorem part_dedicatedKeys_of_few {xs : List α} (h : xs.length ≤ 2 ^ 32) :
    (∀ i x, xs[i]? = some x → dedicatedKeys.part (UInt32.ofNat i) xs = [x]) ∧
      ∀ key : PartitionKey, xs.length ≤ key.toNat → dedicatedKeys.part key xs = [] := by
  refine ⟨fun i x hx => ?_, fun key hkey => part_eq_nil fun hmem => ?_⟩
  · obtain ⟨hi, -⟩ := List.getElem?_eq_some_iff.mp hx
    exact part_eq_singleton ((nodup_keys_iff xs).mpr h) (getElem?_keys_dedicatedKeys hi) hx
  · rw [keys_dedicatedKeys] at hmem
    obtain ⟨i, hi, rfl⟩ := List.mem_map.mp hmem
    have hi := List.mem_range.mp hi
    rw [UInt32.toNat_ofNat'] at hkey
    exact absurd (hkey.trans (Nat.mod_le i _)) (Nat.not_le.mpr hi)

end Partitioner

/-! ## What is read -/

namespace Session

open Executor Writer

variable [Measured α] {name : String} {xs : List α} {s : Session σ α} {e : Executor α}
  {task : TaskId} {edge : Edge} {destination : Destination} {p : Partitioner σ α}
  {store : StoreKind} {pattern : CommunicationPattern} {persistence : Persistence}

/-- A writer is opened, given elements and closed, among the calls of others. -/
theorem run_reads_parts (hedge : edge.Complete destination store pattern persistence)
    (hfiles : Spacious (.of edge.id task) e) (hready : e.Ready)
    (before during later : List (Call σ α))
    (hbefore : ∀ call ∈ before, call.Foreign name (.of edge.id task))
    (hduring : ∀ call ∈ during,
      call.Foreign name (.of edge.id task) ∨ ∃ x, call = .write name x)
    (hlater : ∀ call ∈ later, call.Foreign name (.of edge.id task)) {encoding : α → Bytes}
    (hcodec : e.registry.medium.codec.Faithful encoding (Call.given name during)) :
    let s := Session.run { executor := e }
      (before ++ .openWriter name task edge destination p :: during)
    (perform (.close name) s).1 = .ok () ∧ ∀ key,
      ((perform (.close name) s).2.run later).executor.registry.readPartition
        (.of edge.id task) key = .ok (p.part key (Call.given name during)) := by
  intro s
  have hencodes : ∀ x ∈ Call.given name during, e.registry.medium.codec.Encodes x :=
    fun x hx earlier => ⟨encoding x, (hcodec x hx).1 earlier, (hcodec x hx).2.1⟩
  have hcarrying := run_open_carrying (p := p) hedge hfiles hready hbefore hduring hencodes
  obtain ⟨hok, es, info, hmakes, hregistered⟩ := close_registered hcarrying hedge hencodes
  have hkept := hregistered.aside (run_foreign hregistered.strangers hlater)
  refine ⟨hok, fun key => ?_⟩
  rw [hkept.readPartition (hmakes.restores hcodec) key, hmakes.part key]

/-- A writer with dedicated keys is opened, given elements and closed, among any calls of others
that are about other writers and other blocks. A key gives back the elements whose places are the
key, up to multiples of the number of words. So the keys are distinct exactly if there are no more
elements than words, and exactly then no key gives back two elements: each is given back alone, by
the key that is its place, and no other key gives back any. -/
theorem run_reads_own {e : Executor α}
    (hedge : edge.Complete destination store pattern persistence)
    (hfiles : Spacious (.of edge.id task) e) (hready : e.Ready)
    (before during later : List (Call UInt32 α))
    (hbefore : ∀ call ∈ before, call.Foreign name (.of edge.id task))
    (hduring : ∀ call ∈ during,
      call.Foreign name (.of edge.id task) ∨ ∃ x, call = .write name x)
    (hlater : ∀ call ∈ later, call.Foreign name (.of edge.id task)) {encoding : α → Bytes}
    (hcodec : e.registry.medium.codec.Faithful encoding (Call.given name during)) :
    let xs := Call.given name during
    let s := Session.run { executor := e }
      (before ++ .openWriter name task edge destination .dedicatedKeys :: during)
    let r := ((perform (.close name) s).2.run later).executor.registry
    (perform (.close name) s).1 = .ok () ∧
      Partitioner.dedicatedKeys.keys xs = (List.range xs.length).map UInt32.ofNat ∧
      (∀ key, r.readPartition (.of edge.id task) key =
        .ok ((xs.zipIdx.filter fun entry => entry.2 % 2 ^ 32 = key.toNat).map Prod.fst)) ∧
      ((Partitioner.dedicatedKeys.keys xs).Nodup ↔ xs.length ≤ 2 ^ 32) ∧
      ((∀ key ys, r.readPartition (.of edge.id task) key = .ok ys → ys.length ≤ 1) ↔
        xs.length ≤ 2 ^ 32) ∧
      (xs.length ≤ 2 ^ 32 →
        (∀ i x, xs[i]? = some x →
          r.readPartition (.of edge.id task) (UInt32.ofNat i) = .ok [x]) ∧
        ∀ key, xs.length ≤ key.toNat → r.readPartition (.of edge.id task) key = .ok []) := by
  intro xs s r
  obtain ⟨hok, hread⟩ := run_reads_parts (p := .dedicatedKeys) hedge hfiles hready before during
    later hbefore hduring hlater hcodec
  have hread : ∀ key, r.readPartition (.of edge.id task) key =
      .ok (Partitioner.dedicatedKeys.part key xs) := hread
  refine ⟨hok, Partitioner.keys_dedicatedKeys xs, fun key => ?_, Partitioner.nodup_keys_iff xs, ?_,
    fun hfew => ?_⟩
  · rw [hread key, Partitioner.part_dedicatedKeys]
  · rw [← Partitioner.nodup_keys_iff, Partitioner.nodup_keys_iff_part]
    refine forall_congr' fun key => ⟨fun hone => hone _ (hread key), fun hone ys hys => ?_⟩
    cases (hread key).symm.trans hys
    exact hone
  · obtain ⟨hown, hnone⟩ := Partitioner.part_dedicatedKeys_of_few hfew
    refine ⟨fun i x hx => ?_, fun key hkey => ?_⟩
    · rw [hread, hown i x hx]
    · rw [hread, hnone key hkey]

/-- Three elements in a file, and somebody else between them. -/
theorem run_reads_own_three :
    let edge : Edge := {
      id := ⟨"e"⟩
      store := some .localFile
      pattern := some .oneToOne
      persistence := some .keep }
    let e : Executor UInt64 := {
      registry := { medium := { codec := .json } }
      pool := .ofCapacity 100
      estimator := .ofOptions {} }
    let closed := perform (.close "w") (Session.run { executor := e } [
      .openWriter "w" ⟨"t"⟩ edge ⟨⟨"v"⟩, none⟩ .dedicatedKeys, .write "w" 7,
      .removeBlock ⟨"other"⟩, .write "w" 8, .write "w" 7])
    closed.1 = .ok () ∧
      closed.2.executor.registry.readPartition ⟨"e-t"⟩ 0 = .ok [7] ∧
      closed.2.executor.registry.readPartition ⟨"e-t"⟩ 2 = .ok [7] ∧
      closed.2.executor.registry.readPartition ⟨"e-t"⟩ 3 = .ok [] := by
  intro edge e closed
  have hedge : edge.Complete ⟨⟨"v"⟩, none⟩ .localFile .oneToOne .keep :=
    ⟨rfl, rfl, rfl, rfl, by decide⟩
  have hfiles : Spacious (.of edge.id ⟨"t"⟩) e := ⟨rfl, .of_unnamed rfl, by decide⟩
  have hready : e.Ready := ⟨fun _ h => absurd h List.not_mem_nil, by decide,
    SizeEstimator.usable_ofOptions (by decide)⟩
  have hnone : ∀ call ∈ ([] : List (Call UInt32 UInt64)), call.Foreign "w" (.of edge.id ⟨"t"⟩) :=
    List.forall_mem_nil _
  have hduring : ∀ call ∈ [.write "w" 7, .removeBlock ⟨"other"⟩, .write "w" 8, .write "w" 7],
      Call.Foreign (σ := UInt32) (α := UInt64) "w" (.of edge.id ⟨"t"⟩) call ∨
        ∃ x, call = .write "w" x := by
    intro call hcall
    simp only [List.mem_cons, List.not_mem_nil, or_false] at hcall
    rcases hcall with rfl | rfl | rfl | rfl
    · exact .inr ⟨7, rfl⟩
    · exact .inl (show BlockId.mk "other" ≠ .of edge.id ⟨"t"⟩ by decide)
    · exact .inr ⟨8, rfl⟩
    · exact .inr ⟨7, rfl⟩
  have hgiven : Call.given (σ := UInt32) "w" [.write "w" 7, .removeBlock ⟨"other"⟩,
      .write "w" 8, .write "w" 7] = [(7 : UInt64), 8, 7] := by
    simp [Call.given]
  have hcodec : e.registry.medium.codec.Faithful JsonElement.write (Call.given (σ := UInt32) "w"
      [.write "w" 7, .removeBlock ⟨"other"⟩, .write "w" 8, .write "w" 7]) := by
    intro x hx
    rw [hgiven] at hx
    simp only [List.mem_cons, List.not_mem_nil, or_false] at hx
    rcases hx with rfl | rfl | rfl
    · exact ⟨fun _ => rfl, by decide, by decide⟩
    · exact ⟨fun _ => rfl, by decide, by decide⟩
    · exact ⟨fun _ => rfl, by decide, by decide⟩
  have hmain := run_reads_own hedge hfiles hready [] _ [] hnone hduring hnone hcodec
  have hid : BlockId.of edge.id ⟨"t"⟩ = ⟨"e-t"⟩ := rfl
  simp only [List.nil_append, run_nil, hid, hgiven] at hmain
  obtain ⟨hok, -, -, -, -, hfew⟩ := hmain
  obtain ⟨hown, hrest⟩ := hfew (by decide)
  simp only [closed]
  exact ⟨hok, hown 0 7 rfl, hown 2 7 rfl, hrest 3 (by decide)⟩

omit [Measured α] in
/-- The elements of a writer that only writes. -/
theorem given_replicate (name : String) (n : Nat) (x : α) :
    Call.given (σ := σ) name (List.replicate n (.write name x)) = List.replicate n x := by
  induction n with
  | zero => rfl
  | succ n ih => rw [List.replicate_succ, Call.given, if_pos rfl, ih, List.replicate_succ]

/-- With more elements than words, some key gives back two of them. -/
theorem run_reads_shared {e : Executor α} (name : String)
    (hedge : edge.Complete destination store pattern persistence)
    (hfiles : Spacious (.of edge.id task) e) (hready : e.Ready) {x : α} {encoding : α → Bytes}
    {n : Nat} (hcodec : e.registry.medium.codec.Faithful encoding (List.replicate n x))
    (hmany : 2 ^ 32 < n) :
    let s := Session.run { executor := e } (.openWriter name task edge destination
      Partitioner.dedicatedKeys :: List.replicate n (.write name x))
    (perform (.close name) s).1 = .ok () ∧ ∃ key ys, 2 ≤ ys.length ∧
      (perform (.close name) s).2.executor.registry.readPartition (.of edge.id task) key =
        .ok ys := by
  intro s
  have hgiven := given_replicate (σ := UInt32) name n x
  obtain ⟨hok, hread⟩ := run_reads_parts (p := Partitioner.dedicatedKeys) hedge hfiles hready []
    (List.replicate n (.write name x)) [] (List.forall_mem_nil _)
    (fun call hcall => .inr ⟨x, List.eq_of_mem_replicate hcall⟩) (List.forall_mem_nil _)
    (hgiven ▸ hcodec)
  have hshared : ¬ ∀ key, (Partitioner.dedicatedKeys.part key (List.replicate n x)).length ≤ 1 := by
    rw [← Partitioner.nodup_keys_iff_part, Partitioner.nodup_keys_iff, List.length_replicate]
    exact Nat.not_le.mpr hmany
  obtain ⟨key, hkey⟩ := not_forall.mp hshared
  refine ⟨hok, key, _, Nat.not_le.mp hkey, ?_⟩
  rw [← hgiven]
  exact hread key

/-- One element more than there are words: the keys are not distinct, and a key gives back two
elements. And two writers in one file, of which the second starts to count in a file that the first
has written to: its elements are read under the first one's keys. -/
theorem dedicated_keys_shared :
    let edge (name : String) (store : StoreKind) : Edge := {
      id := ⟨name⟩
      store := some store
      pattern := some .oneToOne
      persistence := some .keep }
    let e : Executor UInt64 := {
      registry := { medium := { codec := .json } }
      pool := .ofCapacity 100
      estimator := .ofOptions {} }
    let opening (name : String) (task : TaskId) (edge : Edge) : Call UInt32 UInt64 :=
      .openWriter name task edge ⟨⟨"v"⟩, none⟩ .dedicatedKeys
    let long := perform (.close "w") (Session.run { executor := e }
      (opening "w" ⟨"t"⟩ (edge "e" .memory) :: List.replicate (2 ^ 32 + 1) (.write "w" 7)))
    let mixed := perform (.close "x") (Session.run { executor := e } [
      opening "x" ⟨"c"⟩ (edge "a-b" .localFile), .write "x" 10000000000000,
      opening "y" ⟨"b-c"⟩ (edge "a" .localFile), .write "y" 1, .write "y" 2, .write "x" 9])
    ¬ (Partitioner.dedicatedKeys.keys (List.replicate (2 ^ 32 + 1) (7 : UInt64))).Nodup ∧
      long.1 = .ok () ∧ (∃ key ys, 2 ≤ ys.length ∧
        long.2.executor.registry.readPartition ⟨"e-t"⟩ key = .ok ys) ∧
      mixed.1 = .ok () ∧ mixed.2.executor.registry.readPartition ⟨"a-b-c"⟩ 1 = .ok [2, 9] := by
  -- no list of this length is to be unfolded; that it is larger is all that counts
  generalize hn : 2 ^ 32 + 1 = n
  have hmany : 2 ^ 32 < n := by omega
  clear hn
  intro edge e opening long mixed
  have hedge : (edge "e" .memory).Complete ⟨⟨"v"⟩, none⟩ .memory .oneToOne .keep :=
    ⟨rfl, rfl, rfl, rfl, by decide⟩
  have hfiles : Spacious (.of (edge "e" .memory).id ⟨"t"⟩) e := ⟨rfl, .of_unnamed rfl, by decide⟩
  have hready : e.Ready := ⟨fun _ h => absurd h List.not_mem_nil, by decide,
    SizeEstimator.usable_ofOptions (by decide)⟩
  have hcodec : e.registry.medium.codec.Faithful JsonElement.write
      (List.replicate n 7) := by
    intro x hx
    rw [List.eq_of_mem_replicate hx]
    exact ⟨fun _ => rfl, by decide, by decide⟩
  have hshared := run_reads_shared "w" hedge hfiles hready hcodec hmany
  have hid : BlockId.of (edge "e" .memory).id ⟨"t"⟩ = ⟨"e-t"⟩ := rfl
  have hlong : perform (.close "w") (Session.run { executor := e }
      (.openWriter "w" ⟨"t"⟩ (edge "e" .memory) ⟨⟨"v"⟩, none⟩ .dedicatedKeys ::
        List.replicate n (.write "w" 7))) = long := rfl
  dsimp only at hshared
  rw [hid, hlong] at hshared
  obtain ⟨hok, hread⟩ := hshared
  refine ⟨?_, hok, hread, by decide +kernel, by decide +kernel⟩
  rw [Partitioner.nodup_keys_iff, List.length_replicate]
  exact Nat.not_le.mpr hmany

end Session

end ShuffleBuffer
