import Mathlib
import ShuffleBuffer.Proofs.Balance

/-! # Round trips

Any number of parties share a pool. Each has an amount that leaves the counter and comes back: it is
acquired and released, or released first and acquired later, or reserved for a block and undone,
through the ledger if it was granted and directly if it was denied. What a party does next is one
action that nothing can come between, so reserving for a block and releasing a block take two each,
and a schedule says in which order the parties act.

When all amounts have come back the counter is what it was, whatever it was and however large they
are: the counter adds and subtracts as a word, and an amount that no word holds is capped in the
same way on both ways. All that is asked of the schedule is that no two reservations of one block
stand in the ledger together, since a block is released as a whole. -/

namespace ShuffleBuffer.Pool

/-- An amount and the way it takes. -/
inductive Trip where
  /-- Acquired and released. -/
  | acquired (amount : UInt64)
  /-- Released and acquired. -/
  | advanced (amount : UInt64)
  /-- Reserved for a block and undone. -/
  | reserved (id : BlockId) (amount : UInt64)
  deriving DecidableEq

/-- How far a trip is. -/
inductive Leg where
  | home
  /-- Acquired, or released in advance. -/
  | away
  /-- Granted for a block and not in the ledger yet. -/
  | granted
  | recorded
  | denied
  /-- Taken out of the ledger, with what stood there, and not back on the counter. -/
  | withdrawn (charge : UInt64)
  | back
  deriving DecidableEq

/-- How many actions a trip takes at most from here on. -/
def Leg.left : Leg → Nat
  | home => 4
  | granted => 3
  | recorded => 2
  | away | denied | withdrawn _ => 1
  | back => 0

namespace Trip

/-- What the owner of an amount does next, and how far it is then. -/
def advance (p : Pool) : Trip → Leg → Pool × Leg
  | acquired amount, .home => ((p.acquire amount).2, .away)
  | acquired amount, .away => (p.release amount, .back)
  | advanced amount, .home => (p.release amount, .away)
  | advanced amount, .away => ((p.acquire amount).2, .back)
  | reserved _ amount, .home =>
      let (granted, p) := p.acquire amount
      (p, if granted then .granted else .denied)
  | reserved id amount, .granted => (p.charge id amount, .recorded)
  | reserved id _, .recorded =>
      match p.charged? id with
      | some charge => (p.withdraw id, .withdrawn charge)
      | none => (p, .back)
  | reserved _ _, .withdrawn charge => (p.release charge, .back)
  | reserved _ amount, .denied => (p.release amount, .back)
  | _, _ => (p, .back)

/-- What is off the counter on account of a trip, as the counter takes it. -/
def due : Trip → Leg → Int64
  | acquired amount, .away => signedAmount amount
  | advanced amount, .away => -signedAmount amount
  | reserved _ amount, .granted | reserved _ amount, .recorded | reserved _ amount, .denied =>
      signedAmount amount
  | reserved _ _, .withdrawn charge => signedAmount charge
  | _, _ => 0

/-- The block for which a reservation is granted and not released. -/
def holds : Trip → Leg → Option BlockId
  | reserved id _, .granted | reserved id _, .recorded => some id
  | _, _ => none

theorem left_advance (p : Pool) (trip : Trip) (leg : Leg) :
    (trip.advance p leg).2.left ≤ leg.left - 1 := by
  cases trip with
  | acquired amount => cases leg <;> simp [advance, Leg.left]
  | advanced amount => cases leg <;> simp [advance, Leg.left]
  | reserved id amount =>
    cases leg with
    | home =>
      show (if _ then Leg.granted else Leg.denied).left ≤ _
      split <;> simp [Leg.left]
    | recorded =>
      simp only [advance]
      split <;> simp [Leg.left]
    | _ => simp [advance, Leg.left]

/-- A reservation is what its first actions come to, whether it is granted or denied. -/
theorem advance_reserve (p : Pool) (id : BlockId) (amount : UInt64) :
    let trip := reserved id amount
    let first := trip.advance p .home
    if (p.reserve id amount).1 then
      trip.advance first.1 first.2 = ((p.reserve id amount).2, .recorded)
    else first = ((p.reserve id amount).2, .denied) := by
  have hanswer := reserve_fst p id amount
  split
  · next hgranted =>
    rw [reserve_granted hgranted]
    simp only [advance, ← hanswer, hgranted, if_true]
  · next hrefused =>
    rw [reserve_refused (Bool.eq_false_iff.mpr hrefused)]
    simp only [advance, ← hanswer, Bool.eq_false_iff.mpr hrefused, Bool.false_eq_true, if_false]

/-- The release of a charged block is what the last two actions come to. -/
theorem advance_releaseBlock {p : Pool} {id : BlockId} {charge : UInt64}
    (h : p.charged? id = some charge) (amount : UInt64) :
    let trip := reserved id amount
    let first := trip.advance p .recorded
    trip.advance first.1 first.2 = ((p.releaseBlock id).2, .back) := by
  simp only [advance, h, releaseBlock_of_charged h]

/-- What the owner of an amount calls next where nobody comes in between of the two actions of a
reservation or of the release of a block, and how far it is then. -/
def call (p : Pool) : Trip → Leg → Pool × Leg
  | reserved id amount, .home =>
      let (granted, p) := p.reserve id amount
      (p, if granted then .recorded else .denied)
  | reserved id _, .recorded => ((p.releaseBlock id).2, .back)
  | trip, leg => trip.advance p leg

/-- A whole call is one action or two. A block that is held between the two is held after them. -/
theorem call_eq (p : Pool) (trip : Trip) (leg : Leg) :
    let first := trip.advance p leg
    trip.call p leg = first ∨
      trip.call p leg = trip.advance first.1 first.2 ∧
        trip.holds first.2 = trip.holds (trip.call p leg).2 := by
  cases trip with
  | acquired | advanced => exact .inl rfl
  | reserved id amount =>
    cases leg with
    | home =>
      have hreserve := advance_reserve p id amount
      have hcall : (reserved id amount).call p .home =
        ((p.reserve id amount).2, if (p.reserve id amount).1 then .recorded else .denied) := rfl
      dsimp only at hreserve
      split at hreserve
      · next hgranted =>
        have hhome : ((reserved id amount).advance p .home).2 = .granted :=
          if_pos ((reserve_fst p id amount).symm.trans hgranted)
        rw [if_pos hgranted] at hcall
        refine .inr ⟨hcall.trans hreserve.symm, ?_⟩
        rw [hhome, hcall]
        rfl
      · next hrefused =>
        rw [if_neg hrefused] at hcall
        exact .inl (hcall.trans hreserve.symm)
    | recorded =>
      cases hcharge : p.charged? id with
      | none => exact .inl (by simp only [call, advance, releaseBlock, hcharge])
      | some charge =>
        refine .inr ⟨(advance_releaseBlock hcharge amount).symm, ?_⟩
        simp only [call, advance, hcharge, holds]
    | _ => exact .inl rfl

/-- Unless the ledger has to do with it, an action changes what is left by what comes off the
counter or back onto it. -/
theorem advance_counts (p : Pool) (trip : Trip) (leg : Leg) (h : trip.holds leg = none) :
    (trip.advance p leg).1.charges = p.charges ∧
    (trip.advance p leg).1.remaining + trip.due (trip.advance p leg).2 =
      p.remaining + trip.due leg ∧
    ∀ id amount, trip = .reserved id amount → (trip.advance p leg).2 ≠ .recorded := by
  cases trip with
  | acquired amount =>
    refine ⟨?_, ?_, fun _ _ hother => by cases hother⟩
    · cases leg <;> rfl
    · cases leg with
      | home | away => simp [advance, due, acquire, release]
      | _ => rfl
  | advanced amount =>
    refine ⟨?_, ?_, fun _ _ hother => by cases hother⟩
    · cases leg <;> rfl
    · cases leg with
      | home => simp [advance, due, release, Int64.add_assoc, Int64.add_right_neg]
      | away => simp [advance, due, acquire, Int64.sub_eq_add_neg]
      | _ => rfl
  | reserved id amount =>
    cases leg with
    | home =>
      have hrest : (p.acquire amount).2.remaining + signedAmount amount = p.remaining := by
        simp [acquire]
      refine ⟨rfl, ?_, fun _ _ _ => ?_⟩
      · show (p.acquire amount).2.remaining + (reserved id amount).due (if _ then _ else _) = _
        split <;> simp [due, hrest]
      · show (if _ then Leg.granted else Leg.denied) ≠ _
        split <;> exact fun hlast => by cases hlast
    | denied | withdrawn =>
      exact ⟨rfl, by simp [advance, due, release], fun _ _ _ hlast => by cases hlast⟩
    | away | back => exact ⟨rfl, rfl, fun _ _ _ hlast => by cases hlast⟩
    | granted | recorded => cases h

end Trip

/-- A pool, and the trips of its parties. -/
structure Trips where
  pool : Pool
  trips : List (Trip × Leg)

namespace Trips

def start (p : Pool) (trips : List Trip) : Trips := ⟨p, trips.map fun trip => (trip, .home)⟩

/-- One of the parties acts. -/
def step (s : Trips) (i : Nat) : Trips :=
  match s.trips[i]? with
  | none => s
  | some (trip, leg) =>
      let (pool, leg) := trip.advance s.pool leg
      ⟨pool, s.trips.set i (trip, leg)⟩

def run (s : Trips) (schedule : List Nat) : Trips := schedule.foldl step s

/-- One of the parties makes a whole call. -/
def callStep (s : Trips) (i : Nat) : Trips :=
  match s.trips[i]? with
  | none => s
  | some (trip, leg) =>
      let (pool, leg) := trip.call s.pool leg
      ⟨pool, s.trips.set i (trip, leg)⟩

def runCalls (s : Trips) (schedule : List Nat) : Trips := schedule.foldl callStep s

/-- No block has two reservations that are granted and not released. -/
def Solitary (s : Trips) : Prop := (s.trips.filterMap fun trip => trip.1.holds trip.2).Nodup

/-- That is so at all times. -/
def Orderly : Trips → List Nat → Prop
  | _, [] => True
  | s, i :: schedule => (s.step i).Solitary ∧ Orderly (s.step i) schedule

/-- That is so between any two whole calls. -/
def OrderlyCalls : Trips → List Nat → Prop
  | _, [] => True
  | s, i :: schedule => (s.callStep i).Solitary ∧ OrderlyCalls (s.callStep i) schedule

def Finished (s : Trips) : Prop := ∀ trip ∈ s.trips, trip.2 = .back

instance (s : Trips) : Decidable s.Solitary := inferInstanceAs (Decidable (List.Nodup _))

instance (s : Trips) : Decidable s.Finished := inferInstanceAs (Decidable (∀ _ ∈ _, _))

instance decidableOrderly : (s : Trips) → (schedule : List Nat) → Decidable (s.Orderly schedule)
  | _, [] => isTrue trivial
  | s, i :: schedule =>
      have := decidableOrderly (s.step i) schedule
      inferInstanceAs (Decidable (_ ∧ _))

/-- What is off the counter on account of all trips. -/
def due (s : Trips) : Int64 := (s.trips.map fun trip => trip.1.due trip.2).sum

end Trips

/-! ## Sums of words -/

theorem sum_set (words : List Int64) (i : Nat) (h : i < words.length) (word : Int64) :
    (words.set i word).sum + words[i] = words.sum + word := by
  induction words generalizing i with
  | nil => cases h
  | cons first words ih =>
    cases i with
    | zero =>
      rw [List.set_cons_zero, List.sum_cons, List.sum_cons, List.getElem_cons_zero]
      grind
    | succ i =>
      have hrest := ih i (Nat.lt_of_succ_lt_succ h)
      rw [List.set_cons_succ, List.sum_cons, List.sum_cons, List.getElem_cons_succ]
      grind

namespace Trips

variable {p pool : Pool} {s : Trips} {i : Nat} {trip : Trip} {leg leg' : Leg} {id : BlockId}
  {amount : UInt64}

theorem due_set (hi : s.trips[i]? = some (trip, leg)) (pool : Pool) (leg' : Leg) :
    due ⟨pool, s.trips.set i (trip, leg')⟩ + trip.due leg = s.due + trip.due leg' := by
  obtain ⟨hlt, hget⟩ := List.getElem?_eq_some_iff.mp hi
  have hset := sum_set (s.trips.map fun trip => trip.1.due trip.2) i (by simpa using hlt)
    (trip.due leg')
  rw [List.getElem_map, hget] at hset
  rw [due, due, List.map_set]
  exact hset

/-- Two parties do not hold one block. -/
theorem Solitary.eq (h : s.Solitary) {i j : Nat} {trip trip' : Trip × Leg}
    (hi : s.trips[i]? = some trip) (hj : s.trips[j]? = some trip')
    (hholds : trip.1.holds trip.2 = some id) (hholds' : trip'.1.holds trip'.2 = some id) :
    i = j := by
  obtain ⟨hlt, rfl⟩ := List.getElem?_eq_some_iff.mp hi
  obtain ⟨hlt', rfl⟩ := List.getElem?_eq_some_iff.mp hj
  have hpairs := List.pairwise_iff_getElem.mp (List.pairwise_filterMap.mp h)
  rcases Nat.lt_trichotomy i j with hless | heq | hmore
  · exact absurd rfl (hpairs i j hlt hlt' hless id hholds id hholds')
  · exact heq
  · exact absurd rfl (hpairs j i hlt' hlt hmore id hholds' id hholds)

/-! ## One action -/

/-- What is left and what is off the counter are what was there at first, and the ledger holds what
is recorded next to what it held. -/
structure Settled (p : Pool) (s : Trips) : Prop where
  counter : s.pool.remaining + s.due = p.remaining
  free : ∀ id amount leg, (.reserved id amount, leg) ∈ s.trips → p.charged? id = none
  recorded : ∀ id amount, (.reserved id amount, .recorded) ∈ s.trips →
    s.pool.charged? id = some amount
  others : ∀ id, (∀ amount, (.reserved id amount, .recorded) ∉ s.trips) →
    s.pool.charged? id = p.charged? id

theorem mem_set {t : Trip × Leg} (h : t ∈ s.trips.set i (trip, leg')) :
    t = (trip, leg') ∨ t ∈ s.trips :=
  (List.mem_or_eq_of_mem_set h).symm

/-- Whoever else is there is still there after an action. -/
theorem mem_set_of_ne {t : Trip × Leg} (hi : s.trips[i]? = some (trip, leg)) (h : t ∈ s.trips)
    (hne : t ≠ (trip, leg)) : t ∈ s.trips.set i (trip, leg') := by
  obtain ⟨j, hj⟩ := List.mem_iff_getElem?.mp h
  refine List.mem_iff_getElem?.mpr ⟨j, ?_⟩
  rw [List.getElem?_set_ne, hj]
  rintro rfl
  exact hne (Option.some.inj (hj.symm.trans hi))

/-- An action that leaves the ledger alone. -/
theorem Settled.counted (h : s.Settled p) (hi : s.trips[i]? = some (trip, leg))
    (hcharges : pool.charges = s.pool.charges)
    (hcounter : pool.remaining + trip.due leg' = s.pool.remaining + trip.due leg)
    (hbefore : ∀ id amount, trip = .reserved id amount → leg ≠ .recorded)
    (hafter : ∀ id amount, trip = .reserved id amount → leg' ≠ .recorded) :
    Settled p ⟨pool, s.trips.set i (trip, leg')⟩ where
  counter := by
    have hset := due_set hi pool leg'
    have hwhole := h.counter
    show pool.remaining + _ = _
    grind
  free id amount far hmem := by
    rcases mem_set hmem with heq | hmem
    · obtain ⟨rfl, -⟩ := Prod.mk.inj heq
      exact h.free id amount leg (List.mem_of_getElem? hi)
    · exact h.free id amount far hmem
  recorded id amount hmem := by
    rw [charged?, hcharges]
    rcases mem_set hmem with heq | hmem
    · obtain ⟨hsame, hrecorded⟩ := Prod.mk.inj heq
      exact absurd hrecorded.symm (hafter id amount hsame.symm)
    · exact h.recorded id amount hmem
  others id hnone := by
    rw [charged?, hcharges]
    refine h.others id fun amount hmem => hnone amount (mem_set_of_ne hi hmem ?_)
    intro heq
    obtain ⟨hsame, hrecorded⟩ := Prod.mk.inj heq
    exact hbefore id amount hsame.symm hrecorded.symm

/-- A grant goes into the ledger, where nothing stands under the name. -/
theorem Settled.record (h : s.Settled p) (hsolitary : s.Solitary)
    (hi : s.trips[i]? = some (.reserved id amount, .granted)) :
    Settled p ⟨s.pool.charge id amount, s.trips.set i (.reserved id amount, .recorded)⟩ := by
  have hnone : ∀ other, (.reserved id other, .recorded) ∉ s.trips := by
    intro other hmem
    obtain ⟨j, hj⟩ := List.mem_iff_getElem?.mp hmem
    obtain rfl := hsolitary.eq hi hj rfl rfl
    cases hi.symm.trans hj
  have hfree := h.free id amount .granted (List.mem_of_getElem? hi)
  have hset := due_set hi (s.pool.charge id amount) .recorded
  refine ⟨?_, fun other size far hmem => ?_, fun other size hmem => ?_, fun other hother => ?_⟩
  · have hwhole := h.counter
    simp only [Trip.due] at hset
    show s.pool.remaining + _ = _
    grind
  · rcases mem_set hmem with heq | hmem
    · cases heq
      exact hfree
    · exact h.free other size far hmem
  · rcases mem_set hmem with heq | hmem
    · cases heq
      rw [charged_charge_self, h.others id hnone, hfree]
      simp
    · have hne : other ≠ id := fun hsame => hnone size (hsame ▸ hmem)
      rw [charged_charge_ne hne]
      exact h.recorded other size hmem
  · have hne : other ≠ id := by
      rintro rfl
      exact hother amount (List.mem_set (List.getElem?_eq_some_iff.mp hi).1 _)
    rw [charged_charge_ne hne]
    exact h.others other fun size hmem => hother size (mem_set_of_ne hi hmem (by simp))

/-- What comes out of the ledger is what was recorded. -/
theorem Settled.withdraw (h : s.Settled p) (hsolitary : s.Solitary)
    (hi : s.trips[i]? = some (.reserved id amount, .recorded)) :
    Settled p ⟨s.pool.withdraw id, s.trips.set i (.reserved id amount, .withdrawn amount)⟩ := by
  have hmem := List.mem_of_getElem? hi
  have hset := due_set hi (s.pool.withdraw id) (.withdrawn amount)
  -- the one reservation of the block that is recorded is this one
  have hother {other : BlockId} {size : UInt64}
      (hlater : (.reserved other size, .recorded) ∈
        s.trips.set i (.reserved id amount, .withdrawn amount)) : other ≠ id := by
    rintro rfl
    obtain ⟨j, hj⟩ := List.mem_iff_getElem?.mp hlater
    rw [List.getElem?_set] at hj
    split at hj
    · simp at hj
    · next hne => exact hne (hsolitary.eq hi hj rfl rfl)
  refine ⟨?_, fun other size far hlater => ?_, fun other size hlater => ?_, fun other hnone => ?_⟩
  · have hwhole := h.counter
    simp only [Trip.due] at hset
    show s.pool.remaining + _ = _
    grind
  · rcases mem_set hlater with heq | hlater
    · cases heq
      exact h.free _ _ _ hmem
    · exact h.free other size far hlater
  · rw [charged_withdraw_ne (hother hlater)]
    rcases mem_set hlater with heq | hlater
    · cases heq
    · exact h.recorded other size hlater
  · by_cases hsame : other = id
    · subst hsame
      rw [charged_withdraw_self, h.free _ _ _ hmem]
    · rw [charged_withdraw_ne hsame]
      refine h.others other fun size hlater => hnone size (mem_set_of_ne hi hlater ?_)
      intro heq
      cases heq
      exact hsame rfl

theorem Settled.step (h : s.Settled p) (hsolitary : s.Solitary) (i : Nat) :
    (s.step i).Settled p := by
  rw [Trips.step]
  split
  · exact h
  · next trip leg hi =>
    cases hholds : trip.holds leg with
    | none =>
      obtain ⟨hcharges, hcounter, hafter⟩ := trip.advance_counts s.pool leg hholds
      refine h.counted hi hcharges hcounter (fun id amount hsame hleg => ?_) hafter
      subst hsame hleg
      cases hholds
    | some id =>
      unfold Trip.holds at hholds
      split at hholds
      · exact h.record hsolitary hi
      · next other amount =>
        have hcharged := h.recorded other amount (List.mem_of_getElem? hi)
        simp only [Trip.advance, hcharged]
        exact h.withdraw hsolitary hi
      · cases hholds

theorem solitary_set (h : trip.holds leg = trip.holds leg') (pool pool' : Pool) :
    Solitary ⟨pool, s.trips.set i (trip, leg)⟩ ↔ Solitary ⟨pool', s.trips.set i (trip, leg')⟩ := by
  have hholds : ∀ trips : List (Trip × Leg), trips.filterMap (fun trip => trip.1.holds trip.2) =
      (trips.map fun trip => trip.1.holds trip.2).filterMap id := fun trips => by
    rw [List.filterMap_map]
    rfl
  rw [Solitary, Solitary, hholds, hholds, List.map_set, List.map_set, h]

/-- A whole call keeps what its actions keep. -/
theorem Settled.callStep (h : s.Settled p) (hsolitary : s.Solitary)
    (hafter : (s.callStep i).Solitary) : (s.callStep i).Settled p := by
  have hfirst := h.step hsolitary i
  rw [Trips.callStep] at hafter ⊢
  rw [Trips.step] at hfirst
  split at hfirst
  · exact h
  · next trip leg hi =>
    simp only [hi] at hafter ⊢
    obtain hone | ⟨htwo, hholds⟩ := trip.call_eq s.pool leg
    · rw [hone]
      exact hfirst
    · have hsecond := hfirst.step ((solitary_set hholds _ _).mpr hafter) i
      have hlt := (List.getElem?_eq_some_iff.mp hi).1
      rw [Trips.step, List.getElem?_set_self hlt] at hsecond
      rw [htwo]
      simpa only [List.set_set] using hsecond

/-! ## Runs -/

/-- Trips that have not begun and trips that are finished keep nothing off the counter. -/
theorem due_of_unmoved (h : ∀ trip ∈ s.trips, trip.2 = .home ∨ trip.2 = .back) : s.due = 0 := by
  have hzero : s.trips.map (fun trip => trip.1.due trip.2) = s.trips.map fun _ => 0 := by
    refine List.map_congr_left fun ⟨trip, leg⟩ hmem => ?_
    rcases h _ hmem with rfl | rfl
    · cases trip <;> rfl
    · cases trip <;> rfl
  rw [due, hzero]
  generalize s.trips = trips
  induction trips with
  | nil => rfl
  | cons trip trips ih => rw [List.map_cons, List.sum_cons, ih, Int64.add_zero]

theorem settled_start {trips : List Trip}
    (hfree : ∀ id amount, .reserved id amount ∈ trips → p.charged? id = none) :
    (start p trips).Settled p where
  counter := by
    rw [due_of_unmoved fun trip hmem => ?_, Int64.add_zero]
    · rfl
    · obtain ⟨trip, -, rfl⟩ := List.mem_map.mp hmem
      exact .inl rfl
  free id amount leg hmem := by
    obtain ⟨trip, htrip, heq⟩ := List.mem_map.mp hmem
    cases heq
    exact hfree id amount htrip
  recorded id amount hmem := by
    obtain ⟨trip, htrip, heq⟩ := List.mem_map.mp hmem
    cases heq
  others _ _ := rfl

theorem solitary_start (p : Pool) (trips : List Trip) : (start p trips).Solitary := by
  have hnone : (start p trips).trips.filterMap (fun trip => trip.1.holds trip.2) = [] := by
    refine List.filterMap_eq_nil_iff.mpr fun trip hmem => ?_
    obtain ⟨trip, -, rfl⟩ := List.mem_map.mp hmem
    cases trip <;> rfl
  rw [Solitary, hnone]
  exact List.nodup_nil

theorem Settled.run (h : s.Settled p) (hsolitary : s.Solitary) {schedule : List Nat}
    (horderly : s.Orderly schedule) : (s.run schedule).Settled p := by
  induction schedule generalizing s with
  | nil => exact h
  | cons i schedule ih => exact ih (h.step hsolitary i) horderly.1 horderly.2

/-- Four actions of its party finish every trip, whatever the others do in between. -/
theorem run_finishes {schedule : List Nat}
    (h : ∀ i trip, s.trips[i]? = some trip → trip.2.left ≤ schedule.count i) :
    (s.run schedule).Finished := by
  induction schedule generalizing s with
  | nil =>
    intro trip hmem
    obtain ⟨i, hi⟩ := List.mem_iff_getElem?.mp hmem
    have hleft := h i trip hi
    cases hleg : trip.2 with
    | back => rfl
    | _ => simp [hleg, Leg.left] at hleft
  | cons j schedule ih =>
    refine ih fun i trip hi => ?_
    rw [step] at hi
    split at hi
    · next hnone =>
      have hleft := h i trip hi
      rwa [List.count_cons_of_ne fun hsame => by simp [hsame, hi] at hnone] at hleft
    · next before leg hj =>
      by_cases hsame : j = i
      · subst hsame
        have hleft : leg.left ≤ (j :: schedule).count j := h j _ hj
        have hless := before.left_advance s.pool leg
        rw [List.count_cons_self] at hleft
        rw [List.getElem?_set_self (List.getElem?_eq_some_iff.mp hj).1] at hi
        cases hi
        show (before.advance s.pool leg).2.left ≤ _
        omega
      · rw [List.getElem?_set_ne hsame] at hi
        have hleft := h i trip hi
        rwa [List.count_cons_of_ne hsame] at hleft

theorem Settled.runCalls (h : s.Settled p) (hsolitary : s.Solitary) {schedule : List Nat}
    (horderly : s.OrderlyCalls schedule) : (s.runCalls schedule).Settled p := by
  induction schedule generalizing s with
  | nil => exact h
  | cons i schedule ih => exact ih (h.callStep hsolitary horderly.1) horderly.1 horderly.2

/-- When all amounts have come back, nothing is off the counter and nothing new is in the ledger. -/
theorem Settled.restored (h : s.Settled p) (hfinished : s.Finished) :
    s.pool.remaining = p.remaining ∧ ∀ id, s.pool.charged? id = p.charged? id := by
  refine ⟨?_, fun id => h.others id fun amount hmem => ?_⟩
  · have hcounter := h.counter
    rwa [due_of_unmoved fun trip hmem => .inr (hfinished trip hmem), Int64.add_zero] at hcounter
  · cases hfinished _ hmem

/-- In every order of whole calls, where nobody comes in between of a reservation or of the release
of a block, all amounts that have come back leave the pool as it was. -/
theorem runCalls_restores (p : Pool) (trips : List Trip) (schedule : List Nat)
    (hfree : ∀ id amount, .reserved id amount ∈ trips → p.charged? id = none)
    (horderly : (start p trips).OrderlyCalls schedule)
    (hfinished : ((start p trips).runCalls schedule).Finished) :
    let s := (start p trips).runCalls schedule
    s.pool.remaining = p.remaining ∧ ∀ id, s.pool.charged? id = p.charged? id :=
  ((settled_start hfree).runCalls (solitary_start p trips) horderly).restored hfinished

/-- In every order of the actions, all amounts that have come back leave the counter as it was at
first, and the ledger too. -/
theorem run_restores (p : Pool) (trips : List Trip) (schedule : List Nat)
    (hfree : ∀ id amount, .reserved id amount ∈ trips → p.charged? id = none)
    (horderly : (start p trips).Orderly schedule)
    (hfinished : ((start p trips).run schedule).Finished) :
    let s := (start p trips).run schedule
    s.pool.remaining = p.remaining ∧ ∀ id, s.pool.charged? id = p.charged? id := by
  intro s
  have hsettled : s.Settled p := (settled_start hfree).run (solitary_start p trips) horderly
  exact hsettled.restored hfinished

/-- Two reservations of one block and two other amounts, three of them beyond the largest signed
word, in a pool that is overdrawn. The first takes the counter below the least word, so it is
granted and the second, which comes before the first is recorded, is denied. -/
theorem run_restores_wrapping :
    let e : BlockId := ⟨"e-t"⟩
    let p : Pool := ⟨1000, -5, [(⟨"f-t"⟩, 300)]⟩
    let trips : List Trip := [.reserved e 0xFFFFFFFFFFFFFFFF, .reserved e 0x8000000000000000,
      .acquired 7, .advanced 0xFFFFFFFFFFFFFFFF]
    let schedule := [0, 1, 3, 2, 0, 1, 3, 0, 2, 0]
    (∀ id amount, .reserved id amount ∈ trips → p.charged? id = none) ∧
    (start p trips).Orderly schedule ∧ ((start p trips).run schedule).Finished ∧
    ((start p trips).run (schedule.take 5)).pool.charged? e = some 0xFFFFFFFFFFFFFFFF ∧
    ((start p trips).run schedule).pool.remaining = -5 := by
  intro e p trips schedule
  have hfree : ∀ id amount, .reserved id amount ∈ trips → p.charged? id = none := by
    intro id amount hmem
    obtain ⟨rfl, -⟩ | ⟨rfl, -⟩ : id = e ∧ _ ∨ id = e ∧ _ := by simpa [trips] using hmem
    · rfl
    · rfl
  have horderly : (start p trips).Orderly schedule := by decide +kernel
  have hfinished : ((start p trips).run schedule).Finished := by decide +kernel
  exact ⟨hfree, horderly, hfinished, by decide +kernel,
    (run_restores p trips schedule hfree horderly hfinished).1⟩

end Trips

end ShuffleBuffer.Pool
