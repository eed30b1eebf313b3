import Xv6Rework.Lib.Count
import Xv6Rework.Lib.Machine
import Mathlib.Algebra.BigOperators.Ring.Finset
import Mathlib.Algebra.Order.BigOperators.Group.Finset

/-!
# Semaphores

`kernel/lock/semaphore.c`, as a machine in which any number of processes execute
`sem_dec` and `sem_inc` on one semaphore, one access to shared memory at a time.

`sem_dec` runs with the semaphore's lock held, except while it sleeps; `sem_inc` takes no
lock.  An increment or decrement of a field is a load and a store.  A process that goes to
sleep can be woken by a `wakeup` only, which `sem_inc` calls if `sem_waiting` is positive;
nothing ever makes it so.

The accounts of a semaphore balance in all states of a run, its lock is released by every
return and no wakeup is lost, exactly if each step is `Careful`: no field has changed
between a load and the store that follows it, the table of holders is not full, and
`sem_inc` raises the value only while nobody sleeps.
-/

namespace Xv6Rework.Semaphore

/-- `MAX_HOLDERS`, `semaphore.h`. -/
def MAX_HOLDERS : Nat := 10
/-- `MAX_SEM_VAL`, `semaphore.h`. -/
def MAX_SEM_VAL : Int := 16
/-- `EINVL`, `semaphore.h`. -/
def EINVL : Int := 1
/-- `ECANTINSERT`, `semaphore.h`. -/
def ECANTINSERT : Int := 2

/-- `struct semaphore` without its lock.  `α` are the processes; `none` is pid 0. -/
structure Sem (α : Type) where
  semValue : Int
  semWaiting : Int
  holding : Int
  holderPids : Fin MAX_HOLDERS → Option α

/-- `init_sem`. -/
def initSem {α : Type} (sem : Sem α) (semValue : Int) : Int × Sem α :=
  if semValue ≤ 0 ∨ MAX_SEM_VAL < semValue then (-EINVL, sem) else (1,
    ⟨semValue, 0, 0, fun _ => none⟩)

/-- The access a process makes next.  A store carries the value loaded before. -/
inductive Pc where
  /-- Outside both functions. -/
  | out
  /-- `sem_dec`: `acquire(sem->lk)`, the test, and `sleep(sem, sem->lk)`. -/
  | decAcquire | decTest | decSleep | asleep | decReacquire
  /-- `sem_dec`: the loop of `insert_pid`. -/
  | decInsert (i : Nat)
  /-- `sem_dec`: `sem_value--`, `holding++` and `release(sem->lk)`. -/
  | decValue | decValueStore (r : Int) | decHolding | decHoldingStore (r : Int) | decRelease
  /-- `sem_inc`: `sem_value++`, `holding--`. -/
  | incValue | incValueStore (r : Int) | incHolding | incHoldingStore (r : Int)
  /-- `sem_inc`: the loop of `remove_pid`, the test of `sem_waiting`, and `wakeup(sem)`. -/
  | incRemove (i : Nat) | incTest | incWakeup
deriving DecidableEq, Repr

/-- What there is to know of a process: where it is, what its last `sem_dec` returned, how
often it holds the semaphore, and whether a wakeup was issued since it went to sleep. -/
structure Local where
  pc : Pc
  ret : Int
  holds : Nat
  signalled : Bool
deriving DecidableEq, Repr

/-- The semaphore, who has its lock, and the processes. -/
structure State (α : Type) where
  sem : Sem α
  lk : Option α
  proc : α → Local

variable {α : Type} [Fintype α] [DecidableEq α]

namespace State

/-- Change one process. -/
def set (s : State α) (p : α) (l : Local) : State α := { s with proc := Function.update s.proc p l }

/-- Process `p` goes on at `pc`. -/
def goto (s : State α) (p : α) (pc : Pc) : State α := s.set p { s.proc p with pc := pc }

/-- `sem_dec` returns. -/
def return_ (s : State α) (p : α) (r : Int) : State α :=
  s.set p { s.proc p with
    pc := .out
    ret := r
    holds := if r = 0 then (s.proc p).holds + 1 else (s.proc p).holds }

/-- Store to an entry of `holder_pids`. -/
def setHolder (s : State α) (i : Fin MAX_HOLDERS) (x : Option α) : State α :=
  { s with sem := { s.sem with holderPids := Function.update s.sem.holderPids i x } }

end State

/-- What a process does next: call one of the functions, make its next access, or issue the
wakeup, which reaches one of those asleep. -/
inductive Act (α : Type) where
  | semDec | semInc | go
  | wake (q : Option α)
deriving DecidableEq, Repr

/-- The next access of `p` in the middle of a call. -/
def access (s : State α) (p : α) : Option (State α) :=
  match (s.proc p).pc with
  | .out | .asleep | .incWakeup => none
  | .decAcquire => if s.lk = none then some { s.goto p .decTest with lk := some p } else none
  | .decTest => some (s.goto p (if s.sem.semValue = 0 then .decSleep else .decInsert 0))
  | .decSleep =>
    some { s.set p { s.proc p with pc := .asleep, signalled := false } with lk := none }
  | .decReacquire =>
    if s.lk = none then some { s.goto p (.decInsert 0) with lk := some p } else none
  | .decInsert i =>
    if h : i < MAX_HOLDERS then
      if s.sem.holderPids ⟨i, h⟩ = none then some ((s.setHolder ⟨i, h⟩ (some p)).goto p .decValue)
      else some (s.goto p (.decInsert (i + 1)))
    else some (s.return_ p (-ECANTINSERT))
  | .decValue => some (s.goto p (.decValueStore s.sem.semValue))
  | .decValueStore r => some { s.goto p .decHolding with sem := { s.sem with semValue := r - 1 } }
  | .decHolding => some (s.goto p (.decHoldingStore s.sem.holding))
  | .decHoldingStore r => some { s.goto p .decRelease with sem := { s.sem with holding := r + 1 } }
  | .decRelease => some { s.return_ p 0 with lk := none }
  | .incValue => some (s.goto p (.incValueStore s.sem.semValue))
  | .incValueStore r => some { s.goto p .incHolding with sem := { s.sem with semValue := r + 1 } }
  | .incHolding => some (s.goto p (.incHoldingStore s.sem.holding))
  | .incHoldingStore r =>
    some { s.goto p (.incRemove 0) with sem := { s.sem with holding := r - 1 } }
  | .incRemove i =>
    if h : i < MAX_HOLDERS then
      if s.sem.holderPids ⟨i, h⟩ = some p then some ((s.setHolder ⟨i, h⟩ none).goto p .incTest)
      else some (s.goto p (.incRemove (i + 1)))
    else some (s.goto p .incTest)
  | .incTest => some (s.goto p (if 0 < s.sem.semWaiting then .incWakeup else .out))

/-- A wakeup that reaches `q`; `none` if nobody sleeps. -/
def wakeup (s : State α) (p : α) : Option α → Option (State α)
  | none => if ∀ x, (s.proc x).pc ≠ .asleep then some (s.goto p .out) else none
  | some q =>
    if (s.proc q).pc = .asleep then
      let woken : α → Local := fun x => if (s.proc x).pc = .asleep then
        { s.proc x with signalled := true } else s.proc x
      some (({ s with proc := woken }.goto q .decReacquire).goto p .out)
    else none

/-- A step of the process `p`. -/
def step (s : State α) (p : α) : Act α → Option (State α)
  | .semDec => if (s.proc p).pc = .out then some (s.goto p .decAcquire) else none
  | .semInc =>
    if (s.proc p).pc = .out ∧ 0 < (s.proc p).holds then
      some (s.set p { s.proc p with pc := .incValue, holds := (s.proc p).holds - 1 })
    else none
  | .go => access s p
  | .wake q => if (s.proc p).pc = .incWakeup then wakeup s p q else none

/-- The machine: any process may take a step. -/
def Step (s : State α) (x : α × Act α) (s' : State α) : Prop := step s x.1 x.2 = some s'

/-- The semaphore has just been initialised with `k`, its lock is free, and nobody uses it. -/
def Start (k : Int) (s : State α) : Prop :=
  (∃ sem, initSem sem k = (1, s.sem)) ∧ s.lk = none ∧ ∀ p, (s.proc p).pc = .out ∧
    (s.proc p).holds = 0

/-! ## What is to hold -/

namespace Pc

/-- A call in progress has taken its unit out of `sem_value`, or not put it back. -/
def inValue : Pc → Int
  | .decHolding | .decHoldingStore _ | .decRelease | .incValue | .incValueStore _ => 1
  | _ => 0

/-- A call in progress is counted in `holding`. -/
def inHolding : Pc → Int
  | .decRelease | .incValue | .incValueStore _ | .incHolding | .incHoldingStore _ => 1
  | _ => 0

/-- A call in progress has an entry in `holder_pids`. -/
def inTable : Pc → Int
  | .decValue | .decValueStore _ | .decHolding | .decHoldingStore _ | .decRelease
  | .incValue | .incValueStore _ | .incHolding | .incHoldingStore _ | .incRemove _ => 1
  | _ => 0

/-- Not between its updates. -/
def Settled (pc : Pc) : Prop := pc.inValue = pc.inHolding ∧ pc.inHolding = pc.inTable

end Pc

/-- The accounts of a semaphore that was initialised with `k` balance, where each call in
progress counts for the updates it has made; every return has released the lock; and nobody
sleeps while the value is positive unless a wakeup was issued. -/
structure Sound (k : Int) (s : State α) : Prop where
  nonneg : 0 ≤ s.sem.semValue
  le : s.sem.semValue ≤ k
  total : s.sem.semValue + s.sem.holding = k + ∑ p,
    ((s.proc p).pc.inHolding - (s.proc p).pc.inValue)
  holders : (count (· ≠ none) s.sem.holderPids : Int) =
    s.sem.holding + ∑ p, ((s.proc p).pc.inTable - (s.proc p).pc.inHolding)
  released : ∀ p, (s.proc p).pc = .out → s.lk ≠ some p
  noLostWakeup : ∀ p, (s.proc p).pc = .asleep → (s.proc p).signalled = false → ¬ 0 < s.sem.semValue

omit [DecidableEq α] in
/-- Where no call is between its updates, value and holders add up to `k`, and `holding` is
the number of holders. -/
theorem Sound.settled {k : Int} {s : State α} (h : Sound k s) (hs : ∀ p, (s.proc p).pc.Settled) :
    s.sem.semValue + s.sem.holding = k ∧ s.sem.holding = count (· ≠ none) s.sem.holderPids := by
  have htotal := h.total
  have hholders := h.holders
  rw [Finset.sum_eq_zero fun p _ => by rw [(hs p).1, sub_self]] at htotal
  rw [Finset.sum_eq_zero fun p _ => by rw [(hs p).2, sub_self]] at hholders
  omega

/-- A store finds the field as it was loaded, a process that decided to sleep still has a
reason to, the search for a free entry has not run off the table, and the value is raised
only while nobody sleeps. -/
def Careful (s : State α) (x : α × Act α) : Prop :=
  x.2 = .go → match (s.proc x.1).pc with
    | .decSleep => s.sem.semValue = 0
    | .decInsert i => i < MAX_HOLDERS
    | .decValueStore r => s.sem.semValue = r
    | .decHoldingStore r | .incHoldingStore r => s.sem.holding = r
    | .incValueStore r => s.sem.semValue = r ∧ ∀ q, (s.proc q).pc ≠ .asleep
    | _ => True

instance (s : State α) (x : α × Act α) : Decidable (Careful s x) := by
  unfold Careful
  split <;> infer_instance

/-! ## The invariant -/

namespace Pc

/-- The lock is held. -/
def Locked : Pc → Bool
  | .decTest | .decSleep | .decInsert _ | .decValue | .decValueStore _ | .decHolding
  | .decHoldingStore _ | .decRelease => true
  | _ => false

/-- The value was found positive, and is still to be lowered. -/
def Sure : Pc → Bool
  | .decInsert _ | .decValue | .decValueStore _ => true
  | _ => false

/-- A wakeup is or was issued. -/
def Woken : Pc → Bool
  | .decReacquire | .incWakeup => true
  | _ => false

end Pc

/-- What every careful run keeps. -/
structure Inv (k : Int) (s : State α) : Prop where
  value : s.sem.semValue = k - ∑ p, ((s.proc p).holds + (s.proc p).pc.inValue)
  holding : s.sem.holding = ∑ p, ((s.proc p).holds + (s.proc p).pc.inHolding)
  table : ∀ p, (count (· = some p) s.sem.holderPids : Int) =
    (s.proc p).holds + (s.proc p).pc.inTable
  waiting : s.sem.semWaiting = 0
  unwoken : ∀ p, (s.proc p).pc.Woken = false
  locked : ∀ p, s.lk = some p ↔ (s.proc p).pc.Locked = true
  sure : ∀ p, (s.proc p).pc.Sure = true → 1 ≤ s.sem.semValue
  nonneg : 0 ≤ s.sem.semValue
  asleep : ∀ p, (s.proc p).pc = .asleep → s.sem.semValue = 0
  unsignalled : ∀ p, (s.proc p).pc = .asleep → (s.proc p).signalled = false
  passed : ∀ p i, (s.proc p).pc = .incRemove i → ∀ j : Fin MAX_HOLDERS, j.val < i →
    s.sem.holderPids j ≠ some p

section

variable {k : Int} {s s' : State α} {p : α}

theorem Pc.inValue_nonneg (pc : Pc) : 0 ≤ pc.inValue := by cases pc <;> simp [inValue]

theorem Inv.sound (h : Inv k s) : Sound k s := by
  refine ⟨h.nonneg, ?_, ?_, ?_, fun p hp hlk => ?_, fun p hp _ hpos => ?_⟩
  · have hsum : (0 : Int) ≤ ∑ p, ((s.proc p).holds + (s.proc p).pc.inValue) :=
      Finset.sum_nonneg fun p _ => by
        have := (s.proc p).pc.inValue_nonneg
        omega
    have := h.value
    omega
  · rw [h.value, h.holding, sub_add_eq_add_sub, add_sub_assoc, ← Finset.sum_sub_distrib]
    congr 1
    exact Finset.sum_congr rfl fun p _ => by omega
  · rw [h.holding, ← Finset.sum_add_distrib, ← sum_count_some, Nat.cast_sum]
    exact Finset.sum_congr rfl fun p _ => by rw [h.table p]; omega
  · have := (h.locked p).mp hlk
    rw [hp] at this
    cases this
  · rw [h.asleep p hp] at hpos
    exact absurd hpos (lt_irrefl 0)

/-- One process goes on with `l`, and the semaphore and its lock change with it. -/
structure Moves (s : State α) (p : α) (l : Local) (s' : State α) : Prop where
  proc : s'.proc = Function.update s.proc p l
  value : s'.sem.semValue + (l.holds + l.pc.inValue) =
    s.sem.semValue + ((s.proc p).holds + (s.proc p).pc.inValue)
  holding : s'.sem.holding - (l.holds + l.pc.inHolding) =
    s.sem.holding - ((s.proc p).holds + (s.proc p).pc.inHolding)
  table : (count (· = some p) s'.sem.holderPids : Int) = l.holds + l.pc.inTable
  others : ∀ q, q ≠ p → ∀ j, s'.sem.holderPids j = some q ↔ s.sem.holderPids j = some q
  waiting : s'.sem.semWaiting = 0
  unwoken : l.pc.Woken = false
  locked : ∀ q, s'.lk = some q ↔ if q = p then l.pc.Locked = true else (s.proc q).pc.Locked = true
  sure : l.pc.Sure = true → 1 ≤ s'.sem.semValue
  stillSure : ∀ q, q ≠ p → (s.proc q).pc.Sure = true → 1 ≤ s'.sem.semValue
  nonneg : 0 ≤ s'.sem.semValue
  asleep : l.pc = .asleep → s'.sem.semValue = 0 ∧ l.signalled = false
  stillAsleep : ∀ q, q ≠ p → (s.proc q).pc = .asleep → s'.sem.semValue = 0
  passed : ∀ i, l.pc = .incRemove i → ∀ j : Fin MAX_HOLDERS, j.val < i →
    s'.sem.holderPids j ≠ some p

theorem Inv.moves {l : Local} (h : Inv k s) (hm : Moves s p l s') : Inv k s' := by
  have hself : s'.proc p = l := by rw [hm.proc, Function.update_self]
  have hother : ∀ q, q ≠ p → s'.proc q = s.proc q :=
    fun q hq => by rw [hm.proc, Function.update_of_ne hq]
  refine ⟨?_, ?_, fun q => ?_, hm.waiting, fun q => ?_, fun q => ?_,
    fun q => ?_, hm.nonneg, fun q => ?_, fun q => ?_, fun q i hq j hj => ?_⟩
  · have hsum := sum_change (f := fun q => (s'.proc q).holds + (s'.proc q).pc.inValue)
      (g := fun q => (s.proc q).holds + (s.proc q).pc.inValue) p fun q hq => by rw [hother q hq]
    have hv := h.value
    have := hm.value
    simp only [hself] at hsum
    omega
  · have hsum := sum_change (f := fun q => (s'.proc q).holds + (s'.proc q).pc.inHolding)
      (g := fun q => (s.proc q).holds + (s.proc q).pc.inHolding) p fun q hq => by rw [hother q hq]
    have hv := h.holding
    have := hm.holding
    simp only [hself] at hsum
    omega
  all_goals by_cases hqp : q = p
  · rw [hqp, hself]; exact hm.table
  · rw [hother q hqp, ← h.table q]
    unfold count
    simp only [hm.others q hqp]
  · rw [hqp, hself]; exact hm.unwoken
  · rw [hother q hqp]; exact h.unwoken q
  · rw [hm.locked, hqp, hself]; simp
  · rw [hm.locked, hother q hqp]; simp [hqp]
  · rw [hqp, hself]; exact hm.sure
  · rw [hother q hqp]; exact hm.stillSure q hqp
  · rw [hqp, hself]; exact fun hq => (hm.asleep hq).1
  · rw [hother q hqp]; exact hm.stillAsleep q hqp
  · rw [hqp, hself]; exact fun hq => (hm.asleep hq).2
  · rw [hother q hqp]; exact h.unsignalled q
  · rw [hqp, hself] at hq
    rw [hqp]
    exact hm.passed i hq j hj
  · rw [hother q hqp] at hq
    rw [ne_eq, hm.others q hqp]
    exact h.passed q i hq j hj

/-- The lock where `p` neither takes nor releases it. -/
theorem Inv.locked_keep (h : Inv k s) {x y : Pc} (hy : (s.proc p).pc = y) (hl : x.Locked = y.Locked)
    (q : α) : s.lk = some q ↔ if q = p then x.Locked = true else (s.proc q).pc.Locked = true := by
  split
  · next e => rw [e, hl, ← hy]; exact h.locked p
  · exact h.locked q

/-- A step that only goes on to another place with the same accounts. -/
theorem Inv.goto (h : Inv k s) {x y : Pc} (hy : (s.proc p).pc = y) (hv : x.inValue = y.inValue)
    (hh : x.inHolding = y.inHolding) (ht : x.inTable = y.inTable) (hw : x.Woken = false)
    (hl : x.Locked = y.Locked) (hs : x.Sure = true → 1 ≤ s.sem.semValue) (ha : x ≠ .asleep)
    (hr : ∀ i, x = .incRemove i → ∀ j : Fin MAX_HOLDERS, j.val < i → s.sem.holderPids j ≠ some p) :
    Inv k (s.goto p x) := by
  subst hy
  refine h.moves (p := p) (l := { s.proc p with pc := x })
    ⟨rfl, ?_, ?_, ?_, fun _ _ _ => Iff.rfl, h.waiting, hw, fun q => ?_, hs, fun q _ => h.sure q,
    h.nonneg, fun hx => absurd hx ha, fun q _ => h.asleep q, hr⟩
  · simp only [hv]; rfl
  · simp only [hh]; rfl
  · simp only [ht]; exact h.table p
  · exact h.locked_keep rfl hl q

/-- Mutual exclusion. -/
theorem Inv.unlocked_of_ne (h : Inv k s) (hp : (s.proc p).pc.Locked = true) {q : α} (hq : q ≠ p) :
    (s.proc q).pc.Locked = false := by
  rw [← Bool.not_eq_true, ← h.locked q, (h.locked p).mpr hp, Option.some.injEq]
  exact Ne.symm hq

theorem Pc.Sure.locked {pc : Pc} (h : pc.Sure = true) : pc.Locked = true := by
  cases pc <;> first | rfl | cases h

/-- The lock after it was free and `p` has taken it. -/
theorem Inv.locked_acquire (h : Inv k s) (hlk : s.lk = none) (q : α) :
    some p = some q ↔ if q = p then true = true else (s.proc q).pc.Locked = true := by
  split
  · next e => simp [e]
  · next e =>
    rw [← h.locked q, hlk]
    simp [Ne.symm e]

/-- The lock after `p` has released it. -/
theorem Inv.locked_release (h : Inv k s) (hp : (s.proc p).pc.Locked = true) (q : α) :
    none = some q ↔ if q = p then false = true else (s.proc q).pc.Locked = true := by
  split
  · simp
  · next e => simp [h.unlocked_of_ne hp e]

omit [Fintype α] [DecidableEq α] in
theorem setHolder_eq_iff {f : Fin MAX_HOLDERS → Option α} {i : Fin MAX_HOLDERS}
    {x : Option α} {q : α} (hx : x ≠ some q) (hi : f i ≠ some q) (j : Fin MAX_HOLDERS) :
    Function.update f i x j = some q ↔ f j = some q := by
  by_cases hj : j = i
  · subst hj; simp [hx, hi]
  · rw [Function.update_of_ne hj]

attribute [local simp] Pc.Sure

/-- A careful access keeps the invariant. -/
theorem Inv.access (h : Inv k s) (hs : access s p = some s') (hc : Careful s (p, .go)) :
    Inv k s' := by
  have htable := h.table p
  have hsure := h.sure p
  replace hc := hc rfl
  cases hpc : (s.proc p).pc <;> simp only [Semaphore.access, hpc] at hs hc htable hsure
  case out | asleep | incWakeup => cases hs
  case decReacquire =>
    have hw := h.unwoken p
    rw [hpc] at hw
    cases hw
  case decAcquire =>
    split at hs
    · next hlk =>
      cases hs
      refine h.moves (p := p) (l := { s.proc p with pc := .decTest })
        ⟨rfl, ?_, ?_, htable, fun _ _ _ => Iff.rfl,
        h.waiting, rfl, h.locked_acquire hlk, (by simp), fun q _ => h.sure q, h.nonneg, (by simp),
        fun q _ => h.asleep q, (by simp)⟩
      · rw [hpc]; rfl
      · rw [hpc]; rfl
    · cases hs
  case decTest =>
    cases hs
    split
    · exact h.goto hpc rfl rfl rfl rfl rfl (by simp) (by simp) (by simp)
    · next hne =>
      have hpos := h.nonneg
      exact h.goto hpc rfl rfl rfl rfl rfl
        (fun _ => by omega) (by simp) (by simp)
  case decSleep =>
    cases hs
    refine h.moves (p := p) (l := { s.proc p with pc := .asleep, signalled := false })
      ⟨rfl, ?_, ?_, htable, fun _ _ _ => Iff.rfl, h.waiting, rfl, h.locked_release
      (by rw [hpc]; rfl), (by simp), fun q _ => h.sure q, h.nonneg, fun _ => ⟨hc, rfl⟩,
      fun q _ => h.asleep q, (by simp)⟩
    · rw [hpc]; rfl
    · rw [hpc]; rfl
  case decInsert i =>
    rw [dif_pos hc] at hs
    split at hs
    · next hfree =>
      cases hs
      have hcount := count_update_of_pos (P := (· = some p)) (f := s.sem.holderPids) (i := ⟨i, hc⟩)
        (x := some p) (by simp [hfree]) rfl
      refine h.moves (p := p) (l := { s.proc p with pc := .decValue })
        ⟨rfl, ?_, ?_, ?_, fun q hq => ?_, h.waiting, rfl,
        fun q => ?_, fun _ => hsure rfl, fun q _ => h.sure q, h.nonneg, (by simp),
        fun q _ => h.asleep q, (by simp)⟩
      · rw [hpc]; rfl
      · rw [hpc]; rfl
      · simp only [State.goto, State.set, State.setHolder, hcount, Pc.inTable] at htable ⊢
        omega
      · exact setHolder_eq_iff (by simpa using Ne.symm hq) (by simp [hfree])
      · exact h.locked_keep hpc rfl q
    · cases hs
      exact h.goto hpc rfl rfl rfl rfl rfl
        (fun _ => hsure rfl) (by simp) (by simp)
  case decValue =>
    cases hs
    exact h.goto hpc rfl rfl rfl rfl rfl
      (fun _ => hsure rfl) (by simp) (by simp)
  case decHolding | incValue | incHolding =>
    cases hs
    exact h.goto hpc rfl rfl rfl rfl rfl (by simp) (by simp) (by simp)
  case decValueStore r =>
    cases hs
    have hpos := hsure rfl
    refine h.moves (p := p) (l := { s.proc p with pc := .decHolding })
      ⟨rfl, ?_, ?_, htable, fun _ _ _ => Iff.rfl, h.waiting, rfl, fun q => ?_, (by simp),
      fun q hq hqs => ?_, ?_, (by simp), fun q _ hqa => ?_, (by simp)⟩
    · simp only [hpc, Pc.inValue]
      omega
    · rw [hpc]; rfl
    · exact h.locked_keep hpc rfl q
    · -- the value is lowered with the lock held, so nobody else counts on it
      have := h.unlocked_of_ne (p := p) (by rw [hpc]; rfl) hq
      rw [Pc.Sure.locked hqs] at this
      cases this
    · show 0 ≤ r - 1
      omega
    · have := h.asleep q hqa
      omega
  case decHoldingStore r =>
    cases hs
    refine h.moves (p := p) (l := { s.proc p with pc := .decRelease })
      ⟨rfl, ?_, ?_, htable, fun _ _ _ => Iff.rfl,
      h.waiting, rfl, h.locked_keep hpc rfl, (by simp), fun q _ => h.sure q, h.nonneg, (by simp),
      fun q _ => h.asleep q, (by simp)⟩
    · rw [hpc]; rfl
    · simp only [hpc, Pc.inHolding]
      omega
  case decRelease =>
    cases hs
    refine h.moves (p := p) (l :=
      { s.proc p with pc := .out, ret := 0, holds := (s.proc p).holds + 1 }) ⟨rfl, ?_, ?_,
      ?_, fun _ _ _ => Iff.rfl, h.waiting, rfl, h.locked_release (by rw [hpc]; rfl), (by simp),
      fun q _ => h.sure q, h.nonneg, (by simp), fun q _ => h.asleep q, (by simp)⟩
    · simp [hpc, Pc.inValue, State.return_, State.set]
    · simp [hpc, Pc.inHolding, State.return_, State.set]
    · simpa [Pc.inTable, State.return_, State.set] using htable
  case incValueStore r =>
    cases hs
    obtain ⟨hr, hasleep⟩ := hc
    have hnonneg := h.nonneg
    refine h.moves (p := p) (l := { s.proc p with pc := .incHolding })
      ⟨rfl, ?_, ?_, htable, fun _ _ _ => Iff.rfl,
      h.waiting, rfl, h.locked_keep hpc rfl, (by simp), fun q _ _ => ?_, ?_, (by simp),
      fun q _ hqa => absurd hqa (hasleep q), (by simp)⟩
    · simp only [hpc, Pc.inValue]
      omega
    · rw [hpc]; rfl
    · show 1 ≤ r + 1
      omega
    · show 0 ≤ r + 1
      omega
  case incHoldingStore r =>
    cases hs
    refine h.moves (p := p) (l := { s.proc p with pc := .incRemove 0 })
      ⟨rfl, ?_, ?_, htable, fun _ _ _ => Iff.rfl,
      h.waiting, rfl, h.locked_keep hpc rfl, (by simp), fun q _ => h.sure q, h.nonneg, (by simp),
      fun q _ => h.asleep q, ?_⟩
    · rw [hpc]; rfl
    · simp only [hpc, Pc.inHolding]
      omega
    · rintro i ⟨⟩ j hj
      exact absurd hj (Nat.not_lt_zero _)
  case incRemove i =>
    have hpassed := h.passed p i hpc
    split at hs
    · next hi =>
      split at hs
      · next hentry =>
        cases hs
        have hcount := count_update_of_neg (P := (· = some p)) (f := s.sem.holderPids)
          (i := ⟨i, hi⟩) (x := none) hentry (by simp)
        refine h.moves (p := p) (l := { s.proc p with pc := .incTest })
          ⟨rfl, ?_, ?_, ?_, fun q hq => ?_, h.waiting, rfl,
          h.locked_keep hpc rfl, (by simp), fun q _ => h.sure q, h.nonneg, (by simp),
          fun q _ => h.asleep q, (by simp)⟩
        · rw [hpc]; rfl
        · rw [hpc]; rfl
        · simp only [State.goto, State.set, State.setHolder, Pc.inTable] at htable ⊢
          omega
        · exact setHolder_eq_iff (by simp) (by rw [hentry]; simpa using Ne.symm hq)
      · next hentry =>
        cases hs
        refine h.goto hpc rfl rfl rfl rfl rfl (by simp) (by simp) ?_
        rintro i' ⟨⟩ j hj
        rcases Nat.lt_succ_iff_lt_or_eq.mp hj with hj | rfl
        · exact hpassed j hj
        · exact hentry
    · -- the process has an entry, and the search would have met it
      next hi =>
      have hzero : count (· = some p) s.sem.holderPids = 0 :=
        count_eq_zero.mpr fun j => hpassed j (by omega)
      simp only [hzero, Pc.inTable] at htable
      omega
  case incTest =>
    cases hs
    rw [h.waiting, if_neg (lt_irrefl 0)]
    exact h.goto hpc rfl rfl rfl rfl rfl (by simp) (by simp) (by simp)

/-- A careful step keeps the invariant. -/
theorem Inv.step {a : Act α} (h : Inv k s) (hs : step s p a = some s') (hc : Careful s (p, a)) :
    Inv k s' := by
  cases a with
  | go => exact h.access hs hc
  | wake q =>
    have hw := h.unwoken p
    simp only [Semaphore.step] at hs
    split at hs
    · next hpc =>
      rw [hpc] at hw
      cases hw
    · cases hs
  | semDec =>
    simp only [Semaphore.step] at hs
    split at hs
    · next hpc =>
      cases hs
      exact h.goto hpc rfl rfl rfl rfl rfl (by simp) (by simp) (by simp)
    · cases hs
  | semInc =>
    have htable := h.table p
    simp only [Semaphore.step] at hs
    split at hs
    · next hpc =>
      obtain ⟨hpc, hholds⟩ := hpc
      cases hs
      refine h.moves (p := p) (l :=
        { s.proc p with pc := .incValue, holds := (s.proc p).holds - 1 }) ⟨rfl, ?_, ?_, ?_,
        fun _ _ _ => Iff.rfl, h.waiting, rfl, h.locked_keep hpc rfl, (by simp), fun q _ => h.sure q,
        h.nonneg, (by simp), fun q _ => h.asleep q, (by simp)⟩
      · simp only [hpc, Pc.inValue, State.set]
        omega
      · simp only [hpc, Pc.inHolding, State.set]
        omega
      · simp only [hpc, Pc.inTable, State.set] at htable ⊢
        omega
    · cases hs

/-- What a change of one process means for the balance of value and holders. -/
theorem Inv.total_change {l : Local} (h : Inv k s) (hproc : s'.proc = Function.update s.proc p l)
    (hs' : Sound k s') :
    s'.sem.semValue + s'.sem.holding + ((s.proc p).pc.inHolding - (s.proc p).pc.inValue) =
      s.sem.semValue + s.sem.holding + (l.pc.inHolding - l.pc.inValue) := by
  have hsum := sum_change (f := fun q => (s'.proc q).pc.inHolding - (s'.proc q).pc.inValue)
    (g := fun q => (s.proc q).pc.inHolding - (s.proc q).pc.inValue) p
    fun q hq => by rw [hproc, Function.update_of_ne hq]
  have htotal := h.sound.total
  have htotal' := hs'.total
  simp only [hproc, Function.update_self] at hsum htotal'
  omega

/-- A step that leaves the semaphore sound was careful. -/
theorem Inv.careful {a : Act α} (h : Inv k s) (hs : Semaphore.step s p a = some s')
    (hs' : Sound k s') : Careful s (p, a) := by
  rintro rfl
  have hnonneg := h.nonneg
  simp only [Semaphore.step] at hs
  cases hpc : (s.proc p).pc <;> simp only [Semaphore.access, hpc] at hs ⊢
  case decSleep =>
    cases hs
    have := hs'.noLostWakeup p (by simp [State.set]) (by simp [State.set])
    simp only [State.set] at this
    omega
  case decInsert i =>
    by_contra hi
    rw [dif_neg hi] at hs
    cases hs
    exact hs'.released p (by simp [State.return_, State.set]) ((h.locked p).mpr (by rw [hpc]; rfl))
  case decValueStore r =>
    cases hs
    have := h.total_change (p := p) (l := { s.proc p with pc := .decHolding }) rfl hs'
    simp only [hpc, Pc.inHolding, Pc.inValue] at this
    omega
  case decHoldingStore r =>
    cases hs
    have := h.total_change (p := p) (l := { s.proc p with pc := .decRelease }) rfl hs'
    simp only [hpc, Pc.inHolding, Pc.inValue] at this
    omega
  case incHoldingStore r =>
    cases hs
    have := h.total_change (p := p) (l := { s.proc p with pc := .incRemove 0 }) rfl hs'
    simp only [hpc, Pc.inHolding, Pc.inValue] at this
    omega
  case incValueStore r =>
    cases hs
    have := h.total_change (p := p) (l := { s.proc p with pc := .incHolding }) rfl hs'
    simp only [hpc, Pc.inHolding, Pc.inValue] at this
    have hr : s.sem.semValue = r := by omega
    refine ⟨hr, fun q hq => ?_⟩
    have hqp : q ≠ p := by
      rintro rfl
      rw [hpc] at hq
      cases hq
    have hlost := hs'.noLostWakeup q (by simpa [State.goto, State.set, hqp] using hq)
      (by simpa [State.goto, State.set, hqp] using h.unsignalled q hq)
    exact hlost (by show 0 < r + 1; omega)

omit [Fintype α] [DecidableEq α] in
/-- `init_sem` leaves a semaphore of value `k` that nobody holds. -/
theorem initSem_eq {sem sem' : Sem α} (h : initSem sem k = (1, sem')) :
    0 < k ∧ sem' = ⟨k, 0, 0, fun _ => none⟩ := by
  unfold initSem at h
  split at h
  · cases (Prod.mk.inj h).1
  · exact ⟨by omega, (Prod.mk.inj h).2.symm⟩

theorem Start.inv (h : Start k s) : Inv k s := by
  obtain ⟨⟨sem, hinit⟩, hlk, hproc⟩ := h
  obtain ⟨hk, hsem⟩ := initSem_eq hinit
  have hpc := fun p => (hproc p).1
  have hholds := fun p => (hproc p).2
  have hnone : ∀ p, count (· = some p) (fun _ : Fin MAX_HOLDERS => (none : Option α)) = 0 :=
    fun p =>
    count_eq_zero.mpr (by simp)
  constructor <;>
    simp [hsem, hlk, hpc, hholds, hnone, Pc.inValue, Pc.inHolding, Pc.inTable, Pc.Woken, Pc.Locked,
    Pc.Sure, hk.le]

end

/-- In a run of `sem_dec` and `sem_inc` the semaphore is sound in every state exactly if
every step is careful. -/
theorem sound_always_iff {k : Int} {s : State α} {l : List ((α × Act α) × State α)} (h0 : Start k s)
    (h : Trace Step s l) : Trace.Always (Sound k) s l ↔ Trace.Meets Careful s l := by
  refine h.always_iff_meets (Inv k) ?_ ?_ h0.inv h0.inv.sound
  · rintro s ⟨p, a⟩ s' hi - hc hs
    exact hi.step hs hc
  · rintro s ⟨p, a⟩ s' hi - hs
    exact ⟨hi.careful hs, fun hc => (hi.step hs hc).sound⟩

/-- A fresh semaphore of value 1, and two processes. -/
def fresh : State (Fin 2) := ⟨⟨1, 0, 0, fun _ => none⟩, none, fun _ => ⟨.out, 0, 0, false⟩⟩

theorem fresh_start : Start 1 fresh := ⟨⟨fresh.sem, rfl⟩, rfl, fun _ => ⟨rfl, rfl⟩⟩

/-- The run of a list of steps. -/
def run (l : List (Fin 2 × Act (Fin 2))) : List ((Fin 2 × Act (Fin 2)) × State (Fin 2)) :=
  Trace.follow (fun s x => step s x.1 x.2) fresh l

/-- All of `sem_dec` by a process that finds the value positive and the first entry free. -/
def dec (p : Fin 2) : List (Fin 2 × Act (Fin 2)) := (p, .semDec) :: List.replicate 8 (p, .go)

/-- All of `sem_inc` by a process that has the first entry. -/
def inc (p : Fin 2) : List (Fin 2 × Act (Fin 2)) := (p, .semInc) :: List.replicate 6 (p, .go)

/-- Process 0 takes the semaphore and gives it back, and then process 1 takes it: every step
is careful. -/
theorem sound_always_fresh :
    Trace.Meets Careful fresh (run (dec 0 ++ inc 0 ++ dec 1)) ∧
      Trace.Always (Sound 1) fresh (run (dec 0 ++ inc 0 ++ dec 1)) := by
  have hcareful : Trace.Meets Careful fresh (run (dec 0 ++ inc 0 ++ dec 1)) := by decide +kernel
  refine ⟨hcareful, (sound_always_iff fresh_start (Trace.of_follow ?_)).mpr hcareful⟩
  decide +kernel

/-- Process 1 finds the value 0 and goes to sleep while process 0 holds the semaphore.
`sem_inc` by process 0 raises the value, and as `sem_waiting` is 0 issues no wakeup: process
1 sleeps on although the value is positive. -/
theorem wakeup_lost :
    let l := run (dec 0 ++ [(1, .semDec), (1, .go), (1, .go), (1, .go)] ++ inc 0)
    Start 1 fresh ∧ Trace Step fresh l ∧ ¬ Sound 1 (Trace.last fresh l) := by
  refine ⟨fresh_start, Trace.of_follow (by decide +kernel), fun h => ?_⟩
  exact h.noLostWakeup 1 (by decide +kernel) (by decide +kernel) (by decide +kernel)

end Xv6Rework.Semaphore
