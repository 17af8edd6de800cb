import Mathlib
import ShuffleBuffer.Proofs.Balance

/-! # Clients of a pool

Any number of clients share a pool. What they do to it comes down to actions that nothing can come
between: an amount goes off the counter or back onto it, a charge goes into the ledger or out of it.
Reserving for a block and releasing a block are two actions each, so other clients may act in the
middle of them. Whoever is denied owes the amount until it is paid back, and may keep the others
waiting for it.

In every order of the actions, all that was granted and is not given back is within the capacity,
as long as the counter does not wrap. It wraps when much more is asked for at a time than there can
ever be. Calls that nobody comes in between of are one of the orders, and leave the pool as its own
operations do. -/

namespace ShuffleBuffer.Pool

/-- A charge that is out of the ledger and not back on the counter, and the grants that it sums
up. -/
structure Withdrawal where
  charge : UInt64
  grants : List UInt64
  deriving DecidableEq

/-- What a client does to a pool at once. -/
inductive Action where
  | acquire (amount : UInt64)
  /-- The first half of a reservation. -/
  | request (id : BlockId) (amount : UInt64)
  /-- The second half of a reservation that was granted. -/
  | record (id : BlockId) (amount : UInt64)
  /-- A release of an amount that was acquired. -/
  | payBack (amount : UInt64)
  /-- A release of an amount that was denied. -/
  | settle (amount : UInt64)
  /-- The first half of the release of a block. -/
  | withdraw (id : BlockId)
  /-- The second half of the release of a block that was charged. -/
  | handBack (withdrawal : Withdrawal)

/-- What a client asks of a pool, as a whole. -/
inductive Demand where
  | acquire (amount : UInt64)
  | reserve (id : BlockId) (amount : UInt64)
  | payBack (amount : UInt64)
  | settle (amount : UInt64)
  | releaseBlock (id : BlockId)

/-- What is left of a pool after a call, by its own operations. -/
def Demand.perform (p : Pool) : Demand → Pool
  | acquire amount => (p.acquire amount).2
  | reserve id amount => (p.reserve id amount).2
  | payBack amount | settle amount => p.release amount
  | releaseBlock id => (p.releaseBlock id).2

/-- A pool, and what its clients were answered and have not given back. -/
structure Clients where
  pool : Pool
  /-- Acquired and granted. -/
  held : List UInt64 := []
  /-- Denied, whether acquired or requested for a block. -/
  owed : List UInt64 := []
  /-- Granted for a block and not in the ledger yet. -/
  entering : List (BlockId × UInt64) := []
  /-- Granted for a block and recorded against it. -/
  recorded : List (BlockId × UInt64) := []
  leaving : List Withdrawal := []

/-- The largest number of bytes that a pool of this capacity can have left. -/
def limit (capacity : UInt64) : Nat := min capacity.toNat (2 ^ 63 - 1)

/-- An amount as it counts on the counter. -/
def capped (amount : UInt64) : Nat := min amount.toNat (2 ^ 63 - 1)

/-- The sum of amounts, in unbounded numbers. -/
def total (amounts : List UInt64) : Nat := (amounts.map UInt64.toNat).sum

/-- What a block was granted, in a list of grants of several blocks. -/
def grantsOf (id : BlockId) (grants : List (BlockId × UInt64)) : List UInt64 :=
  (grants.filter (·.1 = id)).map Prod.snd

namespace Clients

def start (capacity : UInt64) : Clients := { pool := .ofCapacity capacity }

/-- Everything that was granted and is not given back. -/
def granted (c : Clients) : Nat :=
  total c.held + total (c.entering.map Prod.snd) + total (c.recorded.map Prod.snd) +
    total (c.leaving.flatMap Withdrawal.grants)

/-- Everything that was denied and is not paid back, as it counts on the counter. -/
def due (c : Clients) : Nat := (c.owed.map capped).sum

@[simp]
def after (c : Clients) : Action → Clients
  | .acquire amount =>
      match c.pool.acquire amount with
      | (true, pool) => { c with pool, held := amount :: c.held }
      | (false, pool) => { c with pool, owed := amount :: c.owed }
  | .request id amount =>
      match c.pool.acquire amount with
      | (true, pool) => { c with pool, entering := (id, amount) :: c.entering }
      | (false, pool) => { c with pool, owed := amount :: c.owed }
  | .record id amount =>
      { c with
        pool := c.pool.charge id amount
        entering := c.entering.erase (id, amount)
        recorded := (id, amount) :: c.recorded }
  | .payBack amount => { c with pool := c.pool.release amount, held := c.held.erase amount }
  | .settle amount => { c with pool := c.pool.release amount, owed := c.owed.erase amount }
  | .withdraw id =>
      match c.pool.charged? id with
      | none => c
      | some charge =>
          { c with
            pool := c.pool.withdraw id
            recorded := c.recorded.filter (·.1 ≠ id)
            leaving := ⟨charge, grantsOf id c.recorded⟩ :: c.leaving }
  | .handBack withdrawal =>
      { c with
        pool := c.pool.release withdrawal.charge
        leaving := c.leaving.erase withdrawal }

/-- What is given back was answered before, and the second half of a call follows the first. -/
def Allows (c : Clients) : Action → Prop
  | .acquire _ | .request .. | .withdraw _ => True
  | .record id amount => (id, amount) ∈ c.entering
  | .payBack amount => amount ∈ c.held
  | .settle amount => amount ∈ c.owed
  | .handBack withdrawal => withdrawal ∈ c.leaving

instance (c : Clients) : (action : Action) → Decidable (c.Allows action)
  | .acquire _ | .request .. | .withdraw _ => inferInstanceAs (Decidable True)
  | .record id amount => inferInstanceAs (Decidable ((id, amount) ∈ c.entering))
  | .payBack amount => inferInstanceAs (Decidable (amount ∈ c.held))
  | .settle amount => inferInstanceAs (Decidable (amount ∈ c.owed))
  | .handBack withdrawal => inferInstanceAs (Decidable (withdrawal ∈ c.leaving))

def run (c : Clients) (actions : List Action) : Clients := actions.foldl after c

/-- The actions of a call, where nobody comes in between. -/
def actions (c : Clients) : Demand → List Action
  | .acquire amount => [.acquire amount]
  | .reserve id amount =>
      if (c.pool.reserve id amount).1 then [.request id amount, .record id amount]
      else [.request id amount]
  | .payBack amount => [.payBack amount]
  | .settle amount => [.settle amount]
  | .releaseBlock id =>
      match c.pool.charged? id with
      | none => [.withdraw id]
      | some charge => [.withdraw id, .handBack ⟨charge, grantsOf id c.recorded⟩]

/-- The actions of whole calls, one after another. -/
def expand : Clients → List Demand → List Action
  | _, [] => []
  | c, demand :: demands => c.actions demand ++ expand (c.run (c.actions demand)) demands

/-- Each client gives back what it was answered, once. -/
def Fair : Clients → List Action → Prop
  | _, [] => True
  | c, action :: actions => c.Allows action ∧ Fair (c.after action) actions

/-- At no time so much is granted or due that the counter would wrap below its least word. -/
def Roomy (capacity : UInt64) : Clients → List Action → Prop
  | _, [] => True
  | c, action :: actions =>
      (c.after action).granted + (c.after action).due ≤ limit capacity + 2 ^ 63 ∧
        Roomy capacity (c.after action) actions

instance decidableFair : (c : Clients) → (actions : List Action) → Decidable (Fair c actions)
  | _, [] => isTrue trivial
  | c, action :: actions =>
      have := decidableFair (c.after action) actions
      inferInstanceAs (Decidable (_ ∧ _))

instance decidableRoomy (capacity : UInt64) :
    (c : Clients) → (actions : List Action) → Decidable (Roomy capacity c actions)
  | _, [] => isTrue trivial
  | c, action :: actions =>
      have := decidableRoomy capacity (c.after action) actions
      inferInstanceAs (Decidable (_ ∧ _))

end Clients

variable {p : Pool} {id : BlockId} {amount : UInt64}

/-! ## The counter -/

theorem toInt_signed (amount : UInt64) : (signedAmount amount).toInt = capped amount := by
  rw [toInt_signedAmount, capped]
  omega

theorem release_exact (h : p.remaining.toInt + capped amount < 2 ^ 63) :
    (p.release amount).remaining.toInt = p.remaining.toInt + capped amount := by
  have hsmall : -(2 ^ 63) ≤ p.remaining.toInt := p.remaining.le_toInt
  rw [release, Int64.toInt_add, toInt_signed]
  apply Int.bmod_eq_of_le
  · omega
  · omega

/-! ## Sums -/

theorem total_cons (amount : UInt64) (amounts : List UInt64) :
    total (amount :: amounts) = amount.toNat + total amounts := by
  simp only [total, List.map_cons, List.sum_cons]

theorem total_append (amounts more : List UInt64) :
    total (amounts ++ more) = total amounts + total more := by
  simp only [total, List.map_append, List.sum_append]

theorem total_perm {amounts more : List UInt64} (h : amounts.Perm more) :
    total amounts = total more :=
  (h.map UInt64.toNat).sum_nat

theorem total_erase {amounts : List UInt64} (h : amount ∈ amounts) :
    total amounts = amount.toNat + total (amounts.erase amount) :=
  (total_perm (List.perm_cons_erase h)).trans (total_cons _ _)

theorem total_erase_grant {grants : List (BlockId × UInt64)} (h : (id, amount) ∈ grants) :
    total (grants.map Prod.snd) =
      amount.toNat + total ((grants.erase (id, amount)).map Prod.snd) :=
  (total_perm ((List.perm_cons_erase h).map Prod.snd)).trans (total_cons _ _)

theorem total_erase_withdrawal {withdrawal : Withdrawal} {withdrawals : List Withdrawal}
    (h : withdrawal ∈ withdrawals) :
    total (withdrawals.flatMap Withdrawal.grants) = total withdrawal.grants +
      total ((withdrawals.erase withdrawal).flatMap Withdrawal.grants) :=
  (total_perm ((List.perm_cons_erase h).flatMap_right Withdrawal.grants)).trans (total_append _ _)

theorem due_erase {amounts : List UInt64} (h : amount ∈ amounts) :
    capped amount + ((amounts.erase amount).map capped).sum = (amounts.map capped).sum :=
  List.sum_map_erase capped h

theorem grantsOf_cons_self (id : BlockId) (amount : UInt64) (grants : List (BlockId × UInt64)) :
    grantsOf id ((id, amount) :: grants) = amount :: grantsOf id grants := by
  simp [grantsOf]

theorem grantsOf_cons_ne {other : BlockId} (h : other ≠ id) (grants : List (BlockId × UInt64)) :
    grantsOf other ((id, amount) :: grants) = grantsOf other grants := by
  simp [grantsOf, Ne.symm h]

theorem grantsOf_filter_self (id : BlockId) (grants : List (BlockId × UInt64)) :
    grantsOf id (grants.filter (·.1 ≠ id)) = [] := by
  simp [grantsOf, List.filter_filter]

theorem grantsOf_filter_ne {other : BlockId} (h : other ≠ id) (grants : List (BlockId × UInt64)) :
    grantsOf other (grants.filter (·.1 ≠ id)) = grantsOf other grants := by
  rw [grantsOf, grantsOf, List.filter_filter]
  congr 1
  refine List.filter_congr fun grant _ => ?_
  by_cases hgrant : grant.1 = other
  · simp [hgrant, h]
  · simp [hgrant]

/-- The grants of one block and those of all others are all. -/
theorem total_grants (id : BlockId) (grants : List (BlockId × UInt64)) :
    total (grantsOf id grants) + total ((grants.filter (·.1 ≠ id)).map Prod.snd) =
      total (grants.map Prod.snd) := by
  induction grants with
  | nil => rfl
  | cons grant grants ih =>
    obtain ⟨owner, amount⟩ := grant
    by_cases hsame : owner = id
    · subst hsame
      have hskip : ((owner, amount) :: grants).filter (·.1 ≠ owner) =
          grants.filter (·.1 ≠ owner) := by simp
      simp only [grantsOf_cons_self, hskip, List.map_cons, total_cons]
      omega
    · have hkeep : ((owner, amount) :: grants).filter (·.1 ≠ id) =
          (owner, amount) :: grants.filter (·.1 ≠ id) := by simp [hsame]
      simp only [grantsOf_cons_ne (Ne.symm hsame), hkeep, List.map_cons, total_cons]
      omega

namespace Clients

variable {c : Clients} {capacity : UInt64}

/-- What is left, what is granted and what is due are the whole; the ledger records what was granted
for blocks. -/
structure Fits (capacity : UInt64) (c : Clients) : Prop where
  counter : c.pool.remaining.toInt + c.granted + c.due = limit capacity
  within : c.granted ≤ limit capacity
  ledger : ∀ id, ((c.pool.charged? id).getD 0).toNat = total (grantsOf id c.recorded)
  leaving : ∀ withdrawal ∈ c.leaving, withdrawal.charge.toNat = total withdrawal.grants

theorem limit_lt (capacity : UInt64) : limit capacity < 2 ^ 63 := by
  unfold limit
  omega

theorem fits_start (capacity : UInt64) : (start capacity).Fits capacity where
  counter := by
    show (signedAmount capacity).toInt + (0 : Nat) + (0 : Nat) = _
    rw [toInt_signed]
    simp [limit, capped]
  within := Nat.zero_le _
  ledger _ := rfl
  leaving := nofun

theorem capped_le (amount : UInt64) : capped amount ≤ amount.toNat := Nat.min_le_left _ _

/-- An amount that the counter has room for is granted only if it fits. -/
theorem Fits.answered (h : c.Fits capacity) {amount : UInt64} {answer : Bool} {pool : Pool}
    (hanswer : c.pool.acquire amount = (answer, pool))
    (hroom : c.granted + c.due + capped amount ≤ limit capacity + 2 ^ 63) :
    pool.remaining.toInt = c.pool.remaining.toInt - capped amount ∧
    pool.charges = c.pool.charges ∧
    (answer = true → capped amount = amount.toNat ∧ c.granted + amount.toNat ≤ limit capacity) := by
  have hcounter := h.counter
  have hlimit := limit_lt capacity
  have hsigned := toInt_signed amount
  obtain ⟨hrest, hgrant⟩ := acquire_exact c.pool amount (by omega)
  rw [hsigned] at hrest hgrant
  have hcharges : (c.pool.acquire amount).2.charges = c.pool.charges := rfl
  rw [hanswer] at hrest hgrant hcharges
  refine ⟨hrest, hcharges, fun hgranted => ?_⟩
  have hpositive := hgrant.mp hgranted
  have hcapped : capped amount = min amount.toNat (2 ^ 63 - 1) := rfl
  omega

/-! ## Asking -/

/-- What a granted request leaves behind, wherever it is noted. -/
theorem Fits.grants (h : c.Fits capacity) {c' : Clients} {amount : UInt64}
    (hanswer : c.pool.acquire amount = (true, c'.pool))
    (hroom : c'.granted + c'.due ≤ limit capacity + 2 ^ 63)
    (hgranted : c'.granted = c.granted + amount.toNat) (hdue : c'.due = c.due)
    (hrecorded : c'.recorded = c.recorded) (hleaving : c'.leaving = c.leaving) :
    c'.Fits capacity := by
  have hcapped := capped_le amount
  have hcounter := h.counter
  obtain ⟨hrest, hcharges, hfits⟩ := h.answered hanswer (by omega)
  obtain ⟨hwhole, hwithin⟩ := hfits rfl
  refine ⟨by omega, hgranted ▸ hwithin, fun id => ?_, hleaving ▸ h.leaving⟩
  rw [charged?, hcharges, hrecorded]
  exact h.ledger id

theorem Fits.denies (h : c.Fits capacity) {amount : UInt64} {pool : Pool}
    (hanswer : c.pool.acquire amount = (false, pool))
    (hroom : granted { c with pool, owed := amount :: c.owed } +
      due { c with pool, owed := amount :: c.owed } ≤ limit capacity + 2 ^ 63) :
    Fits capacity { c with pool, owed := amount :: c.owed } := by
  have hcounter := h.counter
  have hdue : due { c with pool, owed := amount :: c.owed } = capped amount + c.due := rfl
  have hgranted : granted { c with pool, owed := amount :: c.owed } = c.granted := rfl
  obtain ⟨hrest, hcharges, -⟩ := h.answered hanswer (by omega)
  refine ⟨?_, h.within, fun id => ?_, h.leaving⟩
  · show pool.remaining.toInt + _ + _ = _
    omega
  · rw [charged?, hcharges]
    exact h.ledger id

theorem Fits.acquire (h : c.Fits capacity) {amount : UInt64}
    (hroom : (c.after (.acquire amount)).granted + (c.after (.acquire amount)).due ≤
      limit capacity + 2 ^ 63) :
    (c.after (.acquire amount)).Fits capacity := by
  rw [after] at hroom ⊢
  split
  · next pool hanswer =>
    simp only [hanswer] at hroom
    refine h.grants hanswer hroom ?_ rfl rfl rfl
    simp only [granted, total_cons]
    omega
  · next pool hanswer =>
    simp only [hanswer] at hroom
    exact h.denies hanswer hroom

theorem Fits.request (h : c.Fits capacity) {id : BlockId} {amount : UInt64}
    (hroom : (c.after (.request id amount)).granted + (c.after (.request id amount)).due ≤
      limit capacity + 2 ^ 63) :
    (c.after (.request id amount)).Fits capacity := by
  rw [after] at hroom ⊢
  split
  · next pool hanswer =>
    simp only [hanswer] at hroom
    refine h.grants hanswer hroom ?_ rfl rfl rfl
    simp only [granted, List.map_cons, total_cons]
    omega
  · next pool hanswer =>
    simp only [hanswer] at hroom
    exact h.denies hanswer hroom

/-! ## Recording and giving back -/

theorem Fits.record (h : c.Fits capacity) {id : BlockId} {amount : UInt64}
    (hallowed : (id, amount) ∈ c.entering) : (c.after (.record id amount)).Fits capacity := by
  have hwithin := h.within
  have hlimit := limit_lt capacity
  have hentering := total_erase_grant hallowed
  have hgranted : (c.after (.record id amount)).granted = c.granted := by
    simp only [after, granted, List.map_cons, total_cons]
    omega
  refine ⟨?_, hgranted ▸ h.within, fun other => ?_, h.leaving⟩
  · rw [hgranted]
    exact h.counter
  · show (((c.pool.charge id amount).charged? other).getD 0).toNat =
      total (grantsOf other ((id, amount) :: c.recorded))
    by_cases hsame : other = id
    · subst hsame
      have hledger := h.ledger other
      have hsplit := total_grants other c.recorded
      rw [charged_charge_self, grantsOf_cons_self, total_cons, Option.getD_some, UInt64.toNat_add,
        Nat.mod_eq_of_lt, hledger]
      · omega
      · simp only [granted] at hwithin
        omega
    · rw [charged_charge_ne hsame, grantsOf_cons_ne hsame]
      exact h.ledger other

/-- A release of an amount that is counted puts it back. -/
theorem Fits.released (h : c.Fits capacity) (amount : UInt64)
    (hamount : capped amount ≤ c.granted + c.due) :
    (c.pool.release amount).remaining.toInt = c.pool.remaining.toInt + capped amount := by
  have hcounter := h.counter
  have hlimit := limit_lt capacity
  exact release_exact (by omega)

/-- What is left of a grant counts in full. -/
theorem Fits.capped_eq (h : c.Fits capacity) (amount : UInt64) (hamount : amount.toNat ≤ c.granted) :
    capped amount = amount.toNat := by
  have hwithin := h.within
  have hlimit := limit_lt capacity
  unfold capped
  omega

theorem Fits.payBack (h : c.Fits capacity) {amount : UInt64} (hallowed : amount ∈ c.held) :
    (c.after (.payBack amount)).Fits capacity := by
  have hheld := total_erase hallowed
  have hgranted : (c.after (.payBack amount)).granted + amount.toNat = c.granted := by
    simp only [after, granted]
    omega
  have hwithin := h.within
  have hcounter := h.counter
  have hcapped := h.capped_eq amount (by omega)
  have hreleased := h.released amount (by omega)
  refine ⟨?_, by omega, h.ledger, h.leaving⟩
  have hdue : (c.after (.payBack amount)).due = c.due := rfl
  show (c.pool.release amount).remaining.toInt + _ + _ = _
  omega

theorem Fits.settle (h : c.Fits capacity) {amount : UInt64} (hallowed : amount ∈ c.owed) :
    (c.after (.settle amount)).Fits capacity := by
  have hdue : capped amount + (c.after (.settle amount)).due = c.due := due_erase hallowed
  have hcounter := h.counter
  have hgranted : (c.after (.settle amount)).granted = c.granted := rfl
  have hreleased := h.released amount (by omega)
  refine ⟨?_, h.within, h.ledger, h.leaving⟩
  show (c.pool.release amount).remaining.toInt + _ + _ = _
  omega

theorem Fits.withdraw (h : c.Fits capacity) (id : BlockId) :
    (c.after (.withdraw id)).Fits capacity := by
  rw [after]
  split
  · exact h
  · next charge hcharged =>
    have hsplit := total_grants id c.recorded
    have hcharge := h.ledger id
    rw [hcharged, Option.getD_some] at hcharge
    have hgranted : granted { c with
        pool := c.pool.withdraw id
        recorded := c.recorded.filter (·.1 ≠ id)
        leaving := ⟨charge, grantsOf id c.recorded⟩ :: c.leaving } = c.granted := by
      simp only [granted, List.flatMap_cons, total_append]
      omega
    refine ⟨?_, hgranted ▸ h.within, fun other => ?_, ?_⟩
    · rw [hgranted]
      exact h.counter
    · show (((c.pool.withdraw id).charged? other).getD 0).toNat =
        total (grantsOf other (c.recorded.filter (·.1 ≠ id)))
      by_cases hsame : other = id
      · rw [hsame, charged_withdraw_self, grantsOf_filter_self]
        rfl
      · rw [charged_withdraw_ne hsame, grantsOf_filter_ne hsame]
        exact h.ledger other
    · exact List.forall_mem_cons.mpr ⟨hcharge, h.leaving⟩

theorem Fits.handBack (h : c.Fits capacity) {withdrawal : Withdrawal}
    (hallowed : withdrawal ∈ c.leaving) : (c.after (.handBack withdrawal)).Fits capacity := by
  have hleaving := total_erase_withdrawal hallowed
  have hcharge := h.leaving withdrawal hallowed
  have hgranted : (c.after (.handBack withdrawal)).granted + withdrawal.charge.toNat =
      c.granted := by
    simp only [after, granted]
    omega
  have hwithin := h.within
  have hcounter := h.counter
  have hcapped := h.capped_eq withdrawal.charge (by omega)
  have hreleased := h.released withdrawal.charge (by omega)
  have hdue : (c.after (.handBack withdrawal)).due = c.due := rfl
  refine ⟨?_, by omega, h.ledger, fun other hother => ?_⟩
  · show (c.pool.release withdrawal.charge).remaining.toInt + _ + _ = _
    omega
  · exact h.leaving other (List.mem_of_mem_erase hother)

/-! ## Runs -/

theorem run_append (c : Clients) (earlier later : List Action) :
    c.run (earlier ++ later) = (c.run earlier).run later :=
  List.foldl_append

/-- A reservation that nobody comes in between of is that of the pool. -/
theorem run_reserve (c : Clients) (id : BlockId) (amount : UInt64) :
    (c.run (c.actions (.reserve id amount))).pool = (c.pool.reserve id amount).2 := by
  have hanswer := reserve_fst c.pool id amount
  rw [actions]
  split
  · next hgranted =>
    have hacquired : c.pool.acquire amount = (true, (c.pool.acquire amount).2) :=
      Prod.ext (hanswer.symm.trans hgranted) rfl
    rw [reserve_granted hgranted]
    simp only [run, List.foldl_cons, List.foldl_nil, after]
    rw [hacquired]
  · next hrefused =>
    have hdenied : c.pool.acquire amount = (false, (c.pool.acquire amount).2) :=
      Prod.ext (hanswer.symm.trans (Bool.eq_false_iff.mpr hrefused)) rfl
    rw [reserve_refused (Bool.eq_false_iff.mpr hrefused)]
    simp only [run, List.foldl_cons, List.foldl_nil, after]
    rw [hdenied]

/-- So is the release of a block. -/
theorem run_releaseBlock (c : Clients) (id : BlockId) :
    (c.run (c.actions (.releaseBlock id))).pool = (c.pool.releaseBlock id).2 := by
  cases hcharged : c.pool.charged? id with
  | none => simp only [actions, releaseBlock, run, List.foldl_cons, List.foldl_nil, after, hcharged]
  | some charge =>
    rw [releaseBlock_of_charged hcharged]
    simp only [actions, run, List.foldl_cons, List.foldl_nil, after, hcharged]

theorem run_actions (c : Clients) (demand : Demand) :
    (c.run (c.actions demand)).pool = demand.perform c.pool := by
  cases demand with
  | acquire amount =>
    show (c.after (.acquire amount)).pool = (c.pool.acquire amount).2
    rw [after]
    split
    · next hanswer => rw [hanswer]
    · next hanswer => rw [hanswer]
  | reserve id amount => exact c.run_reserve id amount
  | payBack | settle => rfl
  | releaseBlock id => exact c.run_releaseBlock id

/-- Whole calls leave the pool as its own operations do. -/
theorem run_expand (c : Clients) (demands : List Demand) :
    (c.run (c.expand demands)).pool = demands.foldl Demand.perform c.pool := by
  induction demands generalizing c with
  | nil => rfl
  | cons demand demands ih =>
    rw [expand, run_append, ih, run_actions, List.foldl_cons]

theorem expand_append (c : Clients) (earlier later : List Demand) :
    c.expand (earlier ++ later) =
      c.expand earlier ++ (c.run (c.expand earlier)).expand later := by
  induction earlier generalizing c with
  | nil => rfl
  | cons demand earlier ih =>
    rw [List.cons_append, expand, ih, expand, List.append_assoc, run_append]

theorem Fits.after (h : c.Fits capacity) {action : Action} (hallowed : c.Allows action)
    (hroom : (c.after action).granted + (c.after action).due ≤ limit capacity + 2 ^ 63) :
    (c.after action).Fits capacity := by
  cases action with
  | acquire amount => exact h.acquire hroom
  | request id amount => exact h.request hroom
  | record id amount => exact h.record hallowed
  | payBack amount => exact h.payBack hallowed
  | settle amount => exact h.settle hallowed
  | withdraw id => exact h.withdraw id
  | handBack withdrawal => exact h.handBack hallowed

theorem Fits.run (h : c.Fits capacity) {actions : List Action} (hfair : c.Fair actions)
    (hroomy : c.Roomy capacity actions) : (c.run actions).Fits capacity := by
  induction actions generalizing c with
  | nil => exact h
  | cons action actions ih =>
    obtain ⟨hallowed, hfair⟩ := hfair
    obtain ⟨hroom, hroomy⟩ := hroomy
    exact ih (h.after hallowed hroom) hfair hroomy

theorem Fair.earlier {earlier later : List Action} (h : c.Fair (earlier ++ later)) :
    c.Fair earlier := by
  induction earlier generalizing c with
  | nil => trivial
  | cons action earlier ih => exact ⟨h.1, ih h.2⟩

theorem Roomy.earlier {earlier later : List Action} (h : c.Roomy capacity (earlier ++ later)) :
    c.Roomy capacity earlier := by
  induction earlier generalizing c with
  | nil => trivial
  | cons action earlier ih => exact ⟨h.1, ih h.2⟩

/-- Where nobody comes in between of the two actions of a reservation or of the release of a block,
the pool is what its own operations leave, and the grants are within the capacity. -/
theorem expand_grants_fit (capacity : UInt64) (demands : List Demand)
    (hfair : (start capacity).Fair ((start capacity).expand demands))
    (hroomy : (start capacity).Roomy capacity ((start capacity).expand demands)) :
    ∀ earlier, earlier <+: demands →
      let c := (start capacity).run ((start capacity).expand earlier)
      c.pool = earlier.foldl Demand.perform (.ofCapacity capacity) ∧
      c.granted ≤ capacity.toNat := by
  intro earlier hearlier c
  obtain ⟨later, rfl⟩ := hearlier
  rw [expand_append] at hfair hroomy
  have hfits := (fits_start capacity).run hfair.earlier hroomy.earlier
  exact ⟨run_expand _ _, hfits.within.trans (Nat.min_le_left _ _)⟩

/-- Whatever the clients do and in which order, at every point what is granted and not given back is
within the capacity. -/
theorem run_grants_fit (capacity : UInt64) (actions : List Action)
    (hfair : (start capacity).Fair actions) (hroomy : (start capacity).Roomy capacity actions) :
    ∀ earlier, earlier <+: actions → ((start capacity).run earlier).granted ≤ capacity.toNat := by
  intro earlier hearlier
  obtain ⟨later, rfl⟩ := hearlier
  have hfits := (fits_start capacity).run hfair.earlier hroomy.earlier
  exact hfits.within.trans (Nat.min_le_left _ _)

/-- Two tasks reserve for blocks, one of them next to a denied request that is settled late, and a
block is released in two halves. -/
theorem run_grants_fit_tasks :
    let e : BlockId := ⟨"e-t"⟩
    let f : BlockId := ⟨"f-t"⟩
    let actions : List Action := [.acquire 600, .request e 300, .request f 500, .record e 300,
      .settle 500, .request f 50, .withdraw e, .record f 50, .handBack ⟨300, [300]⟩, .payBack 600]
    (start 1000).Fair actions ∧ (start 1000).Roomy 1000 actions ∧
    (∀ earlier, earlier <+: actions → ((start 1000).run earlier).granted ≤ 1000) ∧
    ((start 1000).run actions).granted = 50 := by
  intro e f actions
  have hfair : (start 1000).Fair actions := by decide +kernel
  have hroomy : (start 1000).Roomy 1000 actions := by decide +kernel
  exact ⟨hfair, hroomy, run_grants_fit 1000 actions hfair hroomy, by decide +kernel⟩

/-- An amount that no pool could ever grant is owed; by the next one the counter wraps, and grants
twice the capacity. -/
theorem wrapping_overgrants :
    let actions : List Action := [.acquire 9223372036854775807, .acquire 2000]
    (start 1000).Fair actions ∧ ((start 1000).run actions).granted = 2000 := by
  decide +kernel

end Clients

end ShuffleBuffer.Pool
