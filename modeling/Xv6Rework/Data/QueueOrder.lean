import Xv6Rework.Data.QueueSpec
import Xv6Rework.Sched.Proc
import Xv6Rework.Lib.Machine

/-!
# What one queue promises

Three results about a single process queue, none of which asks anything of the other
queues.

* Insertion and removal are the list operations of `Sched/Abstract.lean`.
* `purge_queue` is meant to keep the `RUNNABLE` processes.  It steps to `next` after
  the removal has cleared that field, so it stops at its first removal.
* `readyqueue` is meant to be a priority queue.  Behind its head it is one; but the head
  is never overtaken, so a run has the highest priority in front exactly when no process
  arrives with a higher priority than the head of that moment.
-/

namespace Xv6Rework

open Prog

variable {s : Sched} {q : QId} {l : List PId}

/-! ## Insertion and removal -/

/-- Insertion and removal refine list operations, for every well-formed queue whose
lock is free: the queue stays well formed, a new process is placed before the first
process behind the head that it outranks, an old one is erased, and no process outside
the queue has its links changed. -/
theorem insert_remove_refine (h : QueueWf s q l) (hlock : (s.queue q).qloc = false)
    (hcheck : s.checkLock = false) :
    (∀ new, new ∉ l → (s.proc new).state ≠ .running → (s.proc new).curr ≠ some q →
      ∃ s', insertProcIntoQueue new (some q) s = (.ok (), s') ∧
        QueueWf s' q (Abs.place s.task new l) ∧
        ∀ p, p ∉ l → p ≠ new →
          (s'.proc p).next = (s.proc p).next ∧ (s'.proc p).prev = (s.proc p).prev) ∧
    (∀ old ∈ l, (s.proc old).state ≠ .running →
      ∃ s', removeProcFromQueue old (some q) s = (.ok (), s') ∧ QueueWf s' q (l.erase old) ∧
        ∀ p, p ∉ l → (s'.proc p).next = (s.proc p).next ∧ (s'.proc p).prev = (s.proc p).prev) := by
  constructor
  · intro new hn hst hc
    obtain ⟨s', hs', hrel, -⟩ := insert_places hlock hst hc h hn
    exact ⟨s', hs', hrel.wf, hrel.links_eq⟩
  · intro old hm hst
    obtain ⟨s', hs', hrel, -⟩ := remove_erases hlock hcheck hst h hm
    exact ⟨s', hs', hrel.wf, fun p hp => hrel.links_eq p hp fun e => hp (e ▸ hm)⟩

/-- Every slot holds a `RUNNABLE` process whose priority is its index, and nothing is
queued. -/
def idle : Sched :=
  { Sched.boot 1 with
    proc := fun p =>
      { Task.zero with state := .runnable, pPri := Int8.ofNat p.val, next := none, prev := none } }

/-- `idle` with the processes of `l` inserted into `readyqueue`. -/
def queued (l : List PId) : Sched :=
  (l.forM (fun p => insertProcIntoQueue p (some .ready)) idle).2

theorem insert_remove_refine_queued :
    (∃ s', insertProcIntoQueue 3 (some .ready) (queued [4, 5, 1]) = (.ok (), s') ∧
      QueueWf s' .ready [4, 5, 3, 1]) ∧
    ∃ s', removeProcFromQueue 5 (some .ready) (queued [4, 5, 1]) = (.ok (), s') ∧
      QueueWf s' .ready [4, 1] := by
  have h := insert_remove_refine (s := queued [4, 5, 1]) (q := .ready) (l := [4, 5, 1])
    (by decide) (by decide) (by decide)
  obtain ⟨s', hs', hwf, -⟩ := h.1 3 (by decide) (by decide) (by decide)
  obtain ⟨t, ht, hwf', -⟩ := h.2 5 (by decide) (by decide)
  exact ⟨⟨s', hs', hwf⟩, t, ht, hwf'⟩

/-! ## Purging -/

/-- Dropping a lock that was just taken leaves the state as it was. -/
theorem release_acquired (h : (s.queue q).qloc = false) :
    release q (s.setQueue q fun pq => { pq with qloc := true }) = (.ok (), s) := by
  rw [release_ok (by simp)]
  simp only [Sched.setQueue, Function.update_self, Function.update_idem, ← h]
  rw [Function.update_eq_self_iff.mpr rfl]

@[simp] theorem purgeLoop_none {fuel : Nat} : purgeLoop q fuel none s = (.ok (), s) := by
  cases fuel <;> rfl

/-- The loop passes the `RUNNABLE` processes. -/
theorem purgeLoop_runnable (l1 l2 l3 : List PId)
    (h : DLinked (fun p => (s.proc p).next) (fun p => (s.proc p).prev) (l1 ++ (l2 ++ l3)))
    {fuel : Nat} (hf : l2.length ≤ fuel) (hrun : ∀ p ∈ l2, (s.proc p).state = .runnable) :
    purgeLoop q fuel (l2 ++ l3).head? s = purgeLoop q (fuel - l2.length) l3.head? s := by
  induction l2 generalizing l1 fuel with
  | nil => rfl
  | cons x l2 ih =>
    obtain ⟨fuel, rfl⟩ : ∃ n, fuel = n + 1 := Nat.exists_eq_succ_of_ne_zero (by simp at hf; omega)
    have hx : (s.proc x).next = (l2 ++ l3).head? := h.next_eq l1 x (l2 ++ l3) rfl
    have ih := ih (l1 ++ [x]) (by simpa using h) (by simpa using hf)
      fun p hp => hrun p (List.mem_cons_of_mem x hp)
    rw [List.length_cons, Nat.add_sub_add_right, ← ih, ← hx]
    simp [purgeLoop, hrun x (by simp)]

section

variable (h : QueueWf s q l) (hlock : (s.queue q).qloc = false) (hcheck : s.checkLock = false)

include h hlock

/-- A queue of `RUNNABLE` processes is left alone. -/
theorem purgeQueue_runnable (hrun : ∀ p ∈ l, (s.proc p).state = .runnable) :
    purgeQueue q s = (.ok (), s) := by
  have hloop := purgeLoop_runnable (s := s.setQueue q fun pq => { pq with qloc := true })
    (q := q) [] l [] (by simpa using h.linked) (length_le_of_nodup h.linked.nodup) hrun
  rw [List.append_nil] at hloop
  have hhead : ((s.setQueue q fun pq => { pq with qloc := true }).queue q).head = l.head? := by
    simpa using h.head_eq
  rw [purgeQueue, bind_of_ok (acquire_ok hlock), bind_gets, hhead, bind_of_ok
    (hloop.trans purgeLoop_none)]
  exact release_acquired hlock

include hcheck

/-- The first process that is not `RUNNABLE` is removed, and the loop ends there. -/
theorem purgeQueue_erases {l1 l2 : List PId} {x : PId} (hl : l = l1 ++ x :: l2)
    (hrun : ∀ p ∈ l1, (s.proc p).state = .runnable) (hx : (s.proc x).state ≠ .runnable)
    (hx' : (s.proc x).state ≠ .running) :
    ∃ s', purgeQueue q s = (.ok (), s') ∧ Erased s q x l s' := by
  obtain ⟨s', hs', herased⟩ := remove_erases hlock hcheck hx' h (hl ▸ by simp)
  have hunlocked := herased.unlocked
  have hlen := length_le_of_nodup h.linked.nodup
  rw [hl, List.length_append, List.length_cons] at hlen
  obtain ⟨fuel, hfuel⟩ : ∃ n, NPROC - l1.length = n + 1 :=
    Nat.exists_eq_succ_of_ne_zero (by omega)
  have hloop := purgeLoop_runnable (s := s.setQueue q fun pq => { pq with qloc := true })
    (q := q) [] l1 (x :: l2) (by simpa [hl] using h.linked) (show l1.length ≤ NPROC by omega) hrun
  have hhead : ((s.setQueue q fun pq => { pq with qloc := true }).queue q).head =
      (l1 ++ x :: l2).head? := by
    simpa [hl] using h.head_eq
  -- the removed process has a null `next`, so the next test of the loop is the last
  have hstop : purgeLoop q (fuel + 1) (some x) (s.setQueue q fun pq => { pq with qloc := true }) =
      (.ok (), s'.setQueue q fun pq => { pq with qloc := true }) := by
    rw [purgeLoop, bind_gets, if_pos (by simpa using hx), bind_of_ok (release_acquired hlock),
      bind_of_ok hs', bind_of_ok (acquire_ok hunlocked)]
    simp [herased.next_eq]
  refine ⟨s', ?_, herased⟩
  rw [purgeQueue, bind_of_ok (acquire_ok hlock), bind_gets, hhead,
    bind_of_ok (hloop.trans ((congrArg (fun n => purgeLoop q n (some x) _) hfuel).trans hstop))]
  exact release_acquired hunlocked

/-- The two ways a purge can go. -/
theorem purgeQueue_cases (hrun : ∀ p ∈ l, (s.proc p).state ≠ .running) :
    ((∀ p ∈ l, (s.proc p).state = .runnable) ∧ purgeQueue q s = (.ok (), s)) ∨
    ∃ x ∈ l, (s.proc x).state ≠ .runnable ∧
      ∃ s', purgeQueue q s = (.ok (), s') ∧ Erased s q x l s' := by
  by_cases hall : ∀ p ∈ l, (s.proc p).state = .runnable
  · exact .inl ⟨hall, purgeQueue_runnable h hlock hall⟩
  · right
    obtain ⟨x, hfind⟩ : ∃ x, l.find? (fun p => (s.proc p).state ≠ .runnable) = some x := by
      rw [← Option.isSome_iff_exists, List.find?_isSome]
      push Not at hall
      simpa using hall
    obtain ⟨hx, l1, l2, hl, hrunnable⟩ := List.find?_eq_some_iff_append.mp hfind
    have hmem : x ∈ l := hl ▸ by simp
    have hx : (s.proc x).state ≠ .runnable := by simpa using hx
    exact ⟨x, hmem, hx, purgeQueue_erases h hlock hcheck hl (by simpa using hrunnable) hx
      (hrun x hmem)⟩

end

/-- What `purge_queue` is for: the queue keeps its `RUNNABLE` processes in their order, and
the others are linked nowhere. -/
structure Purged (s : Sched) (q : QId) (l : List PId) (s' : Sched) : Prop where
  wf : QueueWf s' q (l.filter fun p => (s.proc p).state = .runnable)
  unlinked : ∀ p ∈ l, (s.proc p).state ≠ .runnable → (s'.proc p).next = none ∧
    (s'.proc p).prev = none

/-- `purge_queue` purges a queue exactly when at most one of its processes is not
`RUNNABLE`. -/
theorem purgeQueue_purged_iff (h : QueueWf s q l) (hlock : (s.queue q).qloc = false)
    (hcheck : s.checkLock = false) (hrun : ∀ p ∈ l, (s.proc p).state ≠ .running) :
    (∃ s', purgeQueue q s = (.ok (), s') ∧ Purged s q l s') ↔
      ∀ p ∈ l, ∀ p' ∈ l, (s.proc p).state ≠ .runnable → (s.proc p').state ≠ .runnable → p = p' := by
  rcases purgeQueue_cases h hlock hcheck hrun with ⟨hall, hs⟩ | ⟨x, hmem, hx, s', hs', herased⟩
  · refine iff_of_true ⟨s, hs, ?_, fun p hp hne => absurd (hall p hp) hne⟩
      fun p hp _ _ hne => absurd (hall p hp) hne
    rwa [List.filter_eq_self.mpr (by simpa using hall)]
  · constructor
    · rintro ⟨t, ht, hpurged⟩
      obtain rfl : s' = t := (Prod.mk.inj (hs'.symm.trans ht)).2
      have hkept : l.erase x = l.filter fun p => (s.proc p).state = .runnable :=
        herased.wf.links_eq.symm.trans hpurged.wf.links_eq
      have hself : ∀ p ∈ l, (s.proc p).state ≠ .runnable → p = x := by
        intro p hp hne
        by_contra hpx
        have hp' : p ∈ l.filter fun p => (s.proc p).state = .runnable :=
          hkept ▸ (List.mem_erase_of_ne hpx).mpr hp
        exact hne (by simpa using (List.mem_filter.mp hp').2)
      exact fun p hp p' hp' hne hne' => (hself p hp hne).trans (hself p' hp' hne').symm
    · intro hone
      refine ⟨s', hs', ?_, fun p hp hne => ?_⟩
      · have hkept : l.erase x = l.filter fun p => (s.proc p).state = .runnable := by
          rw [h.linked.nodup.erase_eq_filter]
          refine List.filter_congr fun p hp => ?_
          by_cases hpx : p = x
          · simp [hpx, hx]
          · have hp' : (s.proc p).state = .runnable := not_not.mp fun hne => hpx
              (hone p hp x hmem hne hx)
            simp [hpx, hp']
        exact hkept ▸ herased.wf
      · obtain rfl : p = x := hone p hp x hmem hne hx
        exact ⟨herased.next_eq, herased.prev_eq⟩

/-- `queued`, with the processes of `l'` asleep. -/
def queuedAsleep (l l' : List PId) : Sched :=
  l'.foldl (fun s p => s.setProc p fun x => { x with state := .sleeping }) (queued l)

/-- One sleeping process between two runnable ones is taken out. -/
theorem purgeQueue_purged_queued :
    ∃ s', purgeQueue .ready (queuedAsleep [4, 5, 1] [5]) = (.ok (), s') ∧
      Purged (queuedAsleep [4, 5, 1] [5]) .ready [4, 5, 1] s' :=
  (purgeQueue_purged_iff (by decide) (by decide) (by decide) (by decide)).mpr (by decide +kernel)

/-- Of two sleeping processes in a queue, `purge_queue` leaves the second. -/
theorem purgeQueue_not_purged :
    QueueWf (queuedAsleep [4, 5, 1] [4, 5]) .ready [4, 5, 1] ∧
    (∀ p ∈ [4, 5, 1], ((queuedAsleep [4, 5, 1] [4, 5]).proc p).state ≠ .running) ∧
    ¬ ∃ s', purgeQueue .ready (queuedAsleep [4, 5, 1] [4, 5]) = (.ok (), s') ∧
      Purged (queuedAsleep [4, 5, 1] [4, 5]) .ready [4, 5, 1] s' := by
  refine ⟨by decide, by decide, ?_⟩
  rintro ⟨s', hs', hpurged⟩
  have hhead : ((purgeQueue .ready (queuedAsleep [4, 5, 1] [4, 5])).2.queue .ready).head =
      some 5 := by
    decide
  rw [hs', hpurged.wf.head_eq] at hhead
  revert hhead
  decide

/-! ## The order of the ready queue -/

/-- A claim changes no link. -/
theorem QueueWf.claimed {p : PId} {c : CpuId} (h : QueueWf s q l) :
    QueueWf (s.setProc p fun x => { x with inQueue := true, currCpu := some c }) q l := by
  refine ⟨h.linked.congr (fun x _ => ?_) (fun x _ => ?_), h.head_eq, h.tail_of, h.len_eq⟩
  · by_cases hx : x = p
    · subst hx; simp
    · simp [Sched.setProc_proc, hx]
  · by_cases hx : x = p
    · subst hx; simp
    · simp [Sched.setProc_proc, hx]

/-- A scheduler together with the order in which processes came into `readyqueue`: how many
have come, and at which count each came last. -/
structure Arrivals where
  sched : Sched
  clock : Nat
  stamp : PId → Nat

namespace Arrivals

/-- Run a program on the scheduler. -/
def call {α : Type} (x : SchedM α) : Prog Arrivals α :=
  zoom Arrivals.sched (fun s t => { s with sched := t }) x

/-- What is done to the ready queue: a process is inserted, or a CPU takes the head. -/
inductive Act where
  | insert (p : PId)
  | take (c : CpuId)
deriving DecidableEq

/-- `insert_proc_into_queue(p, &readyqueue)`.  A process that is in the queue already does
not come again. -/
def insert (p : PId) : Prog Arrivals Unit := do
  if (← gets fun s => (s.sched.proc p).curr) ≠ some .ready then
    update fun s => { s with clock := s.clock + 1, stamp := Function.update s.stamp p s.clock }
  call (insertProcIntoQueue p (some .ready))

/-- How `scheduler` takes the head off the ready queue. -/
def take (c : CpuId) : Prog Arrivals Unit := do
  match (← gets fun s => (s.sched.queue .ready).head) with
  | none => pure ()
  | some p =>
    if (← gets fun s => (s.sched.proc p).curr) = some .ready then
      if (← call (claimProc p c)) then
        call (removeProcFromQueue p (some .ready))

def exec : Act → Prog Arrivals Unit
  | .insert p => insert p
  | .take c => take c

/-- Only `RUNNABLE` processes that are not `URGENT` are inserted. -/
def Enabled (s : Arrivals) : Act → Prop
  | .insert p => (s.sched.proc p).state = .runnable ∧ (s.sched.proc p).pFlag ≠ URGENT
  | .take _ => True

instance (s : Arrivals) : ∀ a, Decidable (s.Enabled a)
  | .insert p =>
    inferInstanceAs (Decidable ((s.sched.proc p).state = .runnable ∧
      (s.sched.proc p).pFlag ≠ URGENT))
  | .take _ => isTrue trivial

def Step (s : Arrivals) (a : Act) (s' : Arrivals) : Prop :=
  s.Enabled a ∧ exec a s = (.ok (), s')

/-- The ready queue is empty and the locks are free. -/
def Start (s : Arrivals) : Prop :=
  QueueWf s.sched .ready [] ∧ (s.sched.queue .ready).qloc = false ∧ s.sched.checkLock = false

instance (s : Arrivals) : Decidable s.Start :=
  inferInstanceAs (Decidable (QueueWf s.sched .ready [] ∧ (s.sched.queue .ready).qloc = false ∧
    s.sched.checkLock = false))

/-- `p` is to be taken before `p'`: it has a higher priority, or it has the same and came
earlier. -/
def Before (s : Arrivals) (p p' : PId) : Prop :=
  (s.sched.proc p').pPri < (s.sched.proc p).pPri ∨
    (s.sched.proc p').pPri = (s.sched.proc p).pPri ∧ s.stamp p < s.stamp p'

/-- The head of the ready queue is to be taken before every other process in it. -/
def HeadFirst (s : Arrivals) : Prop :=
  ∀ h, (s.sched.queue .ready).head = some h → ∀ p ∈ s.sched.links .ready, p ≠ h → s.Before h p

instance (s : Arrivals) (p p' : PId) : Decidable (s.Before p p') :=
  inferInstanceAs (Decidable (_ ∨ _ ∧ _))

instance : DecidablePred HeadFirst := fun s =>
  inferInstanceAs (Decidable (∀ h : PId, (s.sched.queue .ready).head = some h →
    ∀ p ∈ s.sched.links .ready, p ≠ h → s.Before h p))

/-- A process that comes into the queue does not have a higher priority than its head. -/
def Modest (s : Arrivals) : Act → Prop
  | .insert p => (s.sched.proc p).curr ≠ some .ready → ∀ h, (s.sched.queue .ready).head = some h →
      (s.sched.proc p).pPri ≤ (s.sched.proc h).pPri
  | .take _ => True

/-- What every run keeps: behind its head the queue is sorted. -/
structure Sorted (s : Arrivals) (l : List PId) : Prop where
  wf : QueueWf s.sched .ready l
  unlocked : (s.sched.queue .ready).qloc = false
  check : s.sched.checkLock = false
  runnable : ∀ p ∈ l, (s.sched.proc p).state = .runnable
  curr : ∀ p ∈ l, (s.sched.proc p).curr = some .ready
  stamp : ∀ p ∈ l, s.stamp p < s.clock
  tail : l.tail.Pairwise s.Before

variable {s s' : Arrivals} {p : PId} {c : CpuId}

theorem call_ok {α : Type} {x : SchedM α} {a : α} {t : Sched} (h : x s.sched = (.ok a, t)) :
    call x s = (.ok a, { s with sched := t }) := by
  simp [call, zoom, h]

/-- A state in which the head comes first is one whose whole queue is sorted. -/
theorem Sorted.headFirst_iff (h : s.Sorted l) : s.HeadFirst ↔ l.Pairwise s.Before := by
  rw [HeadFirst, h.wf.head_eq, h.wf.links_eq]
  have htail := h.tail
  have hnd := h.wf.linked.nodup
  cases l with
  | nil => simp
  | cons x l =>
    have hx : x ∉ l := (List.nodup_cons.mp hnd).1
    rw [List.pairwise_cons]
    constructor
    · exact fun hfirst => ⟨fun p hp => hfirst x rfl p (List.mem_cons_of_mem x hp) fun e =>
        hx (e ▸ hp), htail⟩
    · rintro ⟨hfirst, -⟩ y hy p hp hpy
      obtain rfl : x = y := by simpa using hy
      exact hfirst p ((List.mem_cons.mp hp).resolve_left hpy)

/-- Placing the latest process keeps what is behind the head sorted. -/
theorem pairwise_placeBehind {task : PId → Task} (hpri : ∀ x, (task x).pPri = (s.sched.proc x).pPri)
    (hp : (task p).pFlag ≠ URGENT) (hrun : ∀ x ∈ l, (task x).state = .runnable)
    (hlate : ∀ x ∈ l, s.stamp x < s.stamp p) (h : l.Pairwise s.Before) :
    (Abs.placeBehind task p l).Pairwise s.Before := by
  induction l with
  | nil => simp [Abs.placeBehind]
  | cons x l ih =>
    obtain ⟨hx, hl⟩ := List.pairwise_cons.mp h
    have hout : outranks (task p) (task x) = true ↔ (s.sched.proc x).pPri <
        (s.sched.proc p).pPri := by
      simp [outranks, hrun x (by simp), hp, hpri]
    rw [Abs.placeBehind]
    split
    · next hgt =>
      rw [hout, Int8.lt_iff_toInt_lt] at hgt
      refine List.pairwise_cons.mpr ⟨fun y hy => .inl ?_, h⟩
      rw [Int8.lt_iff_toInt_lt]
      rcases List.mem_cons.mp hy with rfl | hy
      · exact hgt
      · rcases hx y hy with hlt | ⟨heq, -⟩
        · rw [Int8.lt_iff_toInt_lt] at hlt
          omega
        · rwa [heq]
    · next hle =>
      rw [hout, Int8.not_lt, Int8.le_iff_lt_or_eq] at hle
      have ih := ih (fun y hy => hrun y (List.mem_cons_of_mem x hy))
        (fun y hy => hlate y (List.mem_cons_of_mem x hy)) hl
      refine List.pairwise_cons.mpr ⟨fun y hy => ?_, ih⟩
      rcases Abs.mem_placeBehind.mp hy with rfl | hy
      · exact hle.imp_right fun heq => ⟨heq, hlate x (by simp)⟩
      · exact hx y hy

/-- `s'` is `s` after `p` has come into the queue. -/
structure Inserts (s : Arrivals) (p : PId) (l : List PId) (s' : Arrivals) : Prop extends
    Placed s.sched .ready p l s'.sched where
  clock_eq : s'.clock = s.clock + 1
  stamp_eq : s'.stamp = Function.update s.stamp p s.clock

/-- `s'` is `s` after `p` has been taken from the queue. -/
structure Takes (s : Arrivals) (p : PId) (l : List PId) (s' : Arrivals) : Prop where
  wf : QueueWf s'.sched .ready l
  unlocked : (s'.sched.queue .ready).qloc = false
  check : s'.sched.checkLock = false
  task_eq : ∀ x, x ≠ p → (s'.sched.proc x).toTask = (s.sched.proc x).toTask
  clock_eq : s'.clock = s.clock
  stamp_eq : s'.stamp = s.stamp

/-- An insertion does nothing to a process that is in the queue, and places another. -/
theorem Sorted.insert_cases (h : s.Sorted l) (hen : s.Enabled (.insert p)) :
    ∃ s', exec (.insert p) s = (.ok (), s') ∧ (((s.sched.proc p).curr = some .ready ∧ s' = s) ∨
      ((s.sched.proc p).curr ≠ some .ready ∧ p ∉ l ∧ s.Inserts p l s')) := by
  obtain ⟨hrun, hflag⟩ := hen
  have hst : (s.sched.proc p).state ≠ .running := by rw [hrun]; decide
  by_cases hc : (s.sched.proc p).curr = some .ready
  · have hsame : insertProcIntoQueue p (some .ready) s.sched = (.ok (), s.sched) := by
      simp [insertProcIntoQueue, hrun, isProcQueued, hc]
    refine ⟨s, ?_, .inl ⟨hc, rfl⟩⟩
    simp only [exec, insert, bind_gets, hc, ne_eq, not_true_eq_false, if_false]
    exact call_ok hsame
  · have hp : p ∉ l := fun hm => hc (h.curr p hm)
    obtain ⟨t, ht, hplaced⟩ := insert_places h.unlocked hst hc h.wf hp
    refine ⟨⟨t, s.clock + 1, Function.update s.stamp p s.clock⟩, ?_, .inr
      ⟨hc, hp, hplaced, rfl, rfl⟩⟩
    simp only [exec, insert, bind_gets, hc, ne_eq, not_false_eq_true, if_true, bind_update]
    exact call_ok (s := { s with clock := s.clock + 1, stamp := Function.update s.stamp p s.clock })
      ht

/-- A CPU takes the head, or finds it claimed or the queue empty. -/
theorem Sorted.take_cases (h : s.Sorted l) :
    ∃ s', exec (.take c) s = (.ok (), s') ∧ (s' = s ∨ ∃ p l', l = p :: l' ∧ s.Takes p l' s') := by
  have hwf := h.wf
  cases l with
  | nil =>
    refine ⟨s, ?_, .inl rfl⟩
    simp only [exec, take, bind_gets, hwf.head_eq, List.head?_nil]
    rfl
  | cons p l =>
    have hcurr := h.curr p (by simp)
    have hst : (s.sched.proc p).state ≠ .running := by rw [h.runnable p (by simp)]; decide
    simp only [exec, take, bind_gets, hwf.head_eq, List.head?_cons, hcurr, if_true]
    cases hq : (s.sched.proc p).inQueue with
    | true =>
      refine ⟨s, ?_, .inl rfl⟩
      rw [bind_of_ok (call_ok (claimProc_taken h.check hq))]
      rfl
    | false =>
      rw [bind_of_ok (call_ok (claimProc_ok h.check hq))]
      set t := s.sched.setProc p fun x => { x with inQueue := true, currCpu := some c }
      have hst' : (t.proc p).state ≠ .running := by simpa [t] using hst
      obtain ⟨u, hu, herased⟩ := remove_erases (s := t) (q := .ready) h.unlocked h.check hst'
        hwf.claimed (by simp)
      refine ⟨_, call_ok (s := { s with sched := t }) hu, .inr ⟨p, l, rfl, ?_⟩⟩
      refine ⟨by simpa using herased.wf, herased.unlocked, herased.check_eq.trans h.check,
        ?_, rfl, rfl⟩
      intro x hx
      rw [herased.task_eq x hx]
      simp [t, Sched.setProc_proc, hx]

theorem Inserts.pPri_eq (h : s.Inserts p l s') (x : PId) :
    (s'.sched.proc x).pPri = (s.sched.proc x).pPri := by
  by_cases hx : x = p
  · rw [hx, h.task_self]
  · rw [h.task_eq x hx]

/-- The order among processes other than the one that comes stays. -/
theorem Inserts.before_iff (h : s.Inserts p l s') {x y : PId} (hx : x ≠ p) (hy : y ≠ p) :
    s'.Before x y ↔ s.Before x y := by
  simp [Before, h.pPri_eq, h.stamp_eq, hx, hy]

/-- A process that comes goes behind those that do not have a lower priority. -/
theorem Inserts.before_self_iff (h : s.Inserts p l s') {x : PId} (hx : x ≠ p)
    (hlt : s.stamp x < s.clock) :
    s'.Before x p ↔ (s.sched.proc p).pPri ≤ (s.sched.proc x).pPri := by
  simp [Before, h.pPri_eq, h.stamp_eq, hx, hlt, Int8.le_iff_lt_or_eq]

theorem Sorted.insert (h : s.Sorted l) (hp : p ∉ l) (hen : s.Enabled (.insert p))
    (hs : s.Inserts p l s') : s'.Sorted (Abs.place s.sched.task p l) := by
  have hne : ∀ x ∈ l, x ≠ p := fun x hx e => hp (e ▸ hx)
  refine ⟨hs.wf, hs.unlocked, hs.check_eq.trans h.check, fun x hx => ?_, fun x hx => ?_,
    fun x hx => ?_, ?_⟩
  · rcases Abs.mem_place.mp hx with rfl | hx
    · rw [hs.task_self]; exact hen.1
    · rw [hs.task_eq x (hne x hx)]; exact h.runnable x hx
  · rcases Abs.mem_place.mp hx with rfl | hx
    · rw [hs.task_self]
    · rw [hs.task_eq x (hne x hx)]; exact h.curr x hx
  · rw [hs.clock_eq, hs.stamp_eq]
    rcases Abs.mem_place.mp hx with rfl | hx
    · simp
    · rw [Function.update_of_ne (hne x hx)]
      exact Nat.lt_succ_of_lt (h.stamp x hx)
  · cases l with
    | nil => exact List.Pairwise.nil
    | cons y l =>
      have hmem : ∀ x ∈ l, x ∈ y :: l := fun x => List.mem_cons_of_mem y
      refine pairwise_placeBehind (fun x => (hs.pPri_eq x).symm) hen.2
        (fun x hx => h.runnable x (hmem x hx)) (fun x hx => ?_)
        (h.tail.imp_of_mem fun {a b} ha hb hab => ?_)
      · simpa [hs.stamp_eq, hne x (hmem x hx)] using h.stamp x (hmem x hx)
      · exact (hs.before_iff (hne a (hmem a ha)) (hne b (hmem b hb))).mpr hab

theorem Sorted.takes (h : s.Sorted (p :: l)) (hs : s.Takes p l s') :
    s'.Sorted l ∧ s'.HeadFirst := by
  have hne : ∀ x ∈ l, x ≠ p := fun x hx e => (List.nodup_cons.mp h.wf.linked.nodup).1 (e ▸ hx)
  have hmem : ∀ x ∈ l, x ∈ p :: l := fun x => List.mem_cons_of_mem p
  have hpair : l.Pairwise s'.Before := h.tail.imp_of_mem fun {a b} ha hb hab => by
    rwa [Before, hs.task_eq a (hne a ha), hs.task_eq b (hne b hb), hs.stamp_eq]
  have hsorted : s'.Sorted l := by
    refine ⟨hs.wf, hs.unlocked, hs.check, fun x hx => ?_, fun x hx => ?_,
      fun x hx => ?_, hpair.tail⟩
    · rw [hs.task_eq x (hne x hx)]; exact h.runnable x (hmem x hx)
    · rw [hs.task_eq x (hne x hx)]; exact h.curr x (hmem x hx)
    · rw [hs.clock_eq, hs.stamp_eq]; exact h.stamp x (hmem x hx)
  exact ⟨hsorted, hsorted.headFirst_iff.mpr hpair⟩

/-- An insertion keeps the head first exactly when what comes is modest. -/
theorem Sorted.headFirst_insert (h : s.Sorted l) (hfirst : s.HeadFirst) (hp : p ∉ l)
    (hen : s.Enabled (.insert p)) (hs : s.Inserts p l s')
    (hc : (s.sched.proc p).curr ≠ some .ready) : s'.HeadFirst ↔ s.Modest (.insert p) := by
  have hsorted := h.insert hp hen hs
  have hne : ∀ x ∈ l, x ≠ p := fun x hx e => hp (e ▸ hx)
  rw [h.headFirst_iff] at hfirst
  rw [hsorted.headFirst_iff, Modest, h.wf.head_eq]
  cases l with
  | nil => simp [Abs.place]
  | cons y l =>
    have hy : y ≠ p := hne y (by simp)
    have htail : (Abs.placeBehind s.sched.task p l).Pairwise s'.Before := hsorted.tail
    have hbefore : ∀ x ∈ l, s'.Before y x := fun x hx =>
      (hs.before_iff hy (hne x (List.mem_cons_of_mem y hx))).mpr
        ((List.pairwise_cons.mp hfirst).1 x hx)
    have hself := hs.before_self_iff hy (h.stamp y (by simp))
    simp only [Abs.place, List.pairwise_cons, htail, and_true, Abs.mem_placeBehind, List.head?_cons,
      Option.some.injEq, forall_eq', forall_eq_or_imp, hself]
    exact ⟨fun hle _ => hle.1, fun hle => ⟨hle hc, hbefore⟩⟩

/-- Every action the machine allows can be carried out. -/
theorem Sorted.exists_step {a : Act} (h : s.Sorted l) (hen : s.Enabled a) : ∃ s', s.Step a s' := by
  cases a with
  | insert p =>
    obtain ⟨s', hs', -⟩ := h.insert_cases hen
    exact ⟨s', hen, hs'⟩
  | take c =>
    obtain ⟨s', hs', -⟩ := h.take_cases
    exact ⟨s', hen, hs'⟩

theorem Sorted.step {a : Act} (h : s.Sorted l) (hs : s.Step a s') :
    (∃ l', s'.Sorted l') ∧ (s.HeadFirst → (s'.HeadFirst ↔ s.Modest a)) := by
  obtain ⟨hen, hexec⟩ := hs
  cases a with
  | insert p =>
    obtain ⟨t, ht, hcases⟩ := h.insert_cases hen
    obtain rfl : t = s' := (Prod.mk.inj (ht.symm.trans hexec)).2
    rcases hcases with ⟨hc, rfl⟩ | ⟨hc, hp, hins⟩
    · exact ⟨⟨l, h⟩, fun hfirst => iff_of_true hfirst fun hne => absurd hc hne⟩
    · exact ⟨⟨_, h.insert hp hen hins⟩, fun hfirst => h.headFirst_insert hfirst hp hen hins hc⟩
  | take c =>
    obtain ⟨t, ht, hcases⟩ := h.take_cases
    obtain rfl : t = s' := (Prod.mk.inj (ht.symm.trans hexec)).2
    rcases hcases with rfl | ⟨p, l', rfl, htakes⟩
    · exact ⟨⟨l, h⟩, fun hfirst => iff_of_true hfirst trivial⟩
    · obtain ⟨hsorted, hfirst⟩ := h.takes htakes
      exact ⟨⟨l', hsorted⟩, fun _ => iff_of_true hfirst trivial⟩

theorem Start.sorted (h : s.Start) : s.Sorted [] :=
  ⟨h.1, h.2.1, h.2.2, by simp, by simp, by simp, by simp⟩

/-- In a run of insertions and removals the head is always the process to be taken
first, exactly when no process comes with a higher priority than the head has. -/
theorem headFirst_iff_modest {run : List (Act × Arrivals)} (h : s.Start) (hrun : Trace Step s run) :
    Trace.Always HeadFirst s run ↔ Trace.Meets Modest s run := by
  refine hrun.always_iff_meets (fun s => ∃ l, s.Sorted l) ?_ ?_ ⟨[], h.sorted⟩
    (h.sorted.headFirst_iff.mpr List.Pairwise.nil)
  · rintro s a s' ⟨l, hl⟩ _ _ hstep
    exact (hl.step hstep).1
  · rintro s a s' ⟨l, hl⟩ hfirst hstep
    exact (hl.step hstep).2 hfirst

/-- `idle` before anything has come. -/
def idle : Arrivals := ⟨Xv6Rework.idle, 0, fun _ => 0⟩

/-- Of processes 5, 1 and 3, none comes with a better priority than the head has. -/
theorem headFirst_modest_idle :
    Trace.Always HeadFirst idle (Trace.run exec idle [.insert 5, .insert 1, .insert 3, .take 0]) ∧
      Trace.Meets Modest idle (Trace.run exec idle [.insert 5, .insert 1, .insert 3, .take 0]) := by
  have hfirst : Trace.Always HeadFirst idle
      (Trace.run exec idle [.insert 5, .insert 1, .insert 3, .take 0]) := by decide +kernel
  refine ⟨hfirst, (headFirst_iff_modest (by decide) ((Trace.of_run ?_).guarded ?_)).mp hfirst⟩
  · decide
  · decide

/-- After process 1 with priority 1, process 5 with priority 5 comes and goes behind it;
a CPU then takes process 1. -/
theorem not_headFirst_idle :
    idle.Start ∧ Trace Step idle (Trace.run exec idle [.insert 1, .insert 5, .take 0]) ∧
      ¬ Trace.Always HeadFirst idle (Trace.run exec idle [.insert 1, .insert 5, .take 0]) := by
  exact ⟨by decide, (Trace.of_run (by decide)).guarded (by decide), by decide⟩

end Arrivals

end Xv6Rework
