import Xv6Rework.Sched.State
import Mathlib.Algebra.Ring.Int.Defs

/-!
# Process queues

`kernel/data/queue.c`.  The queues are threaded through the `next` and `prev`
fields of the process table, so every function here works on the whole
scheduler state.

The two `for` loops over a queue follow `next` pointers and stop at null.  They
take the number of table slots as fuel: a walk that visits more cells than the
table has visits some cell twice, and so never ends.
-/

namespace Xv6Rework

open Prog

/-! ## Locks

A step of the scheduler runs on one CPU with nothing in between, so a lock that
is already held when it is asked for is held by that very CPU: `acquire`
panics.  Likewise for releasing a lock that is free. -/

/-- `acquire(&procqueue->qloc)`. -/
def acquire (q : QId) : SchedM Unit := do
  if (← gets fun s => (s.queue q).qloc) then
    halt "acquire"
  else
    update fun s => s.setQueue q fun pq => { pq with qloc := true }

/-- `release(&procqueue->qloc)`. -/
def release (q : QId) : SchedM Unit := do
  if (← gets fun s => (s.queue q).qloc) then
    update fun s => s.setQueue q fun pq => { pq with qloc := false }
  else
    halt "release"

/-- `acquire(&check_lock)`. -/
def acquireCheck : SchedM Unit := do
  if (← gets fun s => s.checkLock) then
    halt "acquire"
  else
    update fun s => { s with checkLock := true }

/-- `release(&check_lock)`. -/
def releaseCheck : SchedM Unit := do
  if (← gets fun s => s.checkLock) then
    update fun s => { s with checkLock := false }
  else
    halt "release"

/-! ## Queries -/

/-- `initprocqueue`. -/
def initprocqueue (q : QId) : SchedM Unit :=
  update fun s => { s.setQueue q fun _ => ⟨false, none, none, 0⟩ with checkLock := false }

/-- `is_queue_empty`. -/
def isQueueEmpty (q : QId) : SchedM Bool :=
  gets fun s => (s.queue q).head.isNone

/-- `is_proc_queued`. -/
def isProcQueued (p : PId) (pq : QId) : SchedM Bool :=
  gets fun s => (s.proc p).curr = some pq

/-! ## Insertion -/

/-- The test of the insertion loop: may `new` go before `this`? -/
def outranks (new this : Task) : Bool :=
  this.state = .runnable && (new.pPri > this.pPri || new.pFlag = URGENT)

/-- The insertion loop: the first process from `this` on that `new` may go
before, or null at the end of the queue. -/
def findPlace (new : PId) : Nat → Option PId → SchedM (Option PId)
  | _, none => pure none
  | 0, some _ => stop .hang
  | fuel + 1, some this => do
    if (← gets fun s => outranks (s.proc new).toTask (s.proc this).toTask) then
      pure (some this)
    else
      findPlace new fuel (← gets fun s => (s.proc this).next)

/-- The last stores of every path of `insert_proc_into_queue`. -/
def finishInsert (new : PId) (q : QId) : SchedM Unit := do
  update fun s => s.setQueue q fun pq => { pq with len := pq.len + 1 }
  update fun s => s.setProc new fun p => { p with curr := some q }
  release q

/-- `insert_proc_into_queue`. -/
def insertProcIntoQueue (new : PId) : Option QId → SchedM Unit
  | none => pure ()
  | some q => do
    if (← gets fun s => (s.proc new).state) = .running then
      halt "Inserting running proc"
    else if (← isProcQueued new q) then
      pure ()
    else
      acquire q
      match (← gets fun s => (s.queue q).head) with
      | none =>
        update fun s => s.setQueue q fun pq => { pq with head := some new }
        update fun s => s.setProc new fun p => { p with next := none, prev := none }
        finishInsert new q
      | some h =>
        match (← gets fun s => (s.proc h).next) with
        | none =>
          update fun s => s.setQueue q fun pq => { pq with tail := some new }
          update fun s => s.setProc new fun p => { p with next := none, prev := some h }
          update fun s => s.setProc h fun p => { p with next := some new }
          finishInsert new q
        | some this =>
          match (← findPlace new NPROC (some this)) with
          | some this =>
            let before ← gets fun s => (s.proc this).prev
            update fun s => s.setProc new fun p => { p with prev := before, next := some this }
            match before with
            | some b => update fun s => s.setProc b fun p => { p with next := some new }
            | none => update fun s => s.setQueue q fun pq => { pq with head := some new }
            update fun s => s.setProc this fun p => { p with prev := some new }
            finishInsert new q
          | none =>
            match (← gets fun s => (s.queue q).tail) with
            | none => halt "PAGE FAULT"
            | some t =>
              update fun s => s.setProc t fun p => { p with next := some new }
              update fun s => s.setProc new fun p => { p with prev := some t, next := none }
              update fun s => s.setQueue q fun pq => { pq with tail := some new }
              finishInsert new q

/-! ## Claims -/

/-- `claim_proc`. -/
def claimProc (p : PId) (cpu : CpuId) : SchedM Bool := do
  acquireCheck
  let free ← gets fun s => !(s.proc p).inQueue
  if free then
    update fun s => s.setProc p fun p => { p with inQueue := true, currCpu := some cpu }
  releaseCheck
  pure free

/-- What `unclaim_proc` does to a process: only a claimed one loses its
`curr`. -/
def Task.unclaimed (t : Task) : Task :=
  if t.inQueue then { t with inQueue := false, currCpu := none, curr := none } else t

/-- `unclaim_proc`. -/
def unclaimProc (p : PId) : SchedM Bool := do
  acquireCheck
  let claimed ← gets fun s => (s.proc p).inQueue
  update fun s => s.setProc p fun p => { p with toTask := p.toTask.unclaimed }
  releaseCheck
  pure claimed

/-! ## Removal -/

/-- The search loop of `remove_proc_from_queue`: is `old` met on the way? -/
def findProc (old : PId) : Nat → Option PId → SchedM Bool
  | _, none => pure false
  | 0, some _ => stop .hang
  | fuel + 1, some this =>
    if this = old then
      pure true
    else do
      findProc old fuel (← gets fun s => (s.proc this).next)

/-- The last stores of both paths of `remove_proc_from_queue`. -/
def finishRemove (old : PId) (q : QId) : SchedM Unit := do
  update fun s => s.setQueue q fun pq => { pq with len := pq.len - 1 }
  update fun s => s.setProc old fun p => { p with next := none, prev := none }
  let _ ← unclaimProc old
  release q

/-- `remove_proc_from_queue`.  When the search loop does not meet `old` the
function falls off its end with `qloc` still held. -/
def removeProcFromQueue (old : PId) : Option QId → SchedM Unit
  | none => pure ()
  | some q => do
    match (← gets fun s => (s.queue q).head) with
    | none => halt "proc not in queue"
    | some h =>
      if (← gets fun s => (s.proc old).state) = .running then
        halt "Removing running proc"
      else
        acquire q
        if h = old then
          let after ← gets fun s => (s.proc old).next
          update fun s => s.setQueue q fun pq => { pq with head := after }
          match after with
          | some n => update fun s => s.setProc n fun p => { p with prev := none }
          | none => update fun s => s.setQueue q fun pq => { pq with tail := none }
          finishRemove old q
        else if (← findProc old NPROC (some h)) then
          let before ← gets fun s => (s.proc old).prev
          let after ← gets fun s => (s.proc old).next
          match before with
          | some b => update fun s => s.setProc b fun p => { p with next := after }
          | none => pure ()
          match after with
          | some n => update fun s => s.setProc n fun p => { p with prev := before }
          | none => update fun s => s.setQueue q fun pq => { pq with tail := before }
          finishRemove old q
        else
          pure ()

/-! ## Purging, shifting, balancing -/

/-- The loop of `purge_queue`.  The lock is dropped around the removal and taken
again, and the step to `pointer->next` comes after the removal has cleared
that very field. -/
def purgeLoop (q : QId) : Nat → Option PId → SchedM Unit
  | _, none => pure ()
  | 0, some _ => stop .hang
  | fuel + 1, some pointer => do
    if (← gets fun s => (s.proc pointer).state) ≠ .runnable then
      release q
      removeProcFromQueue pointer (some q)
      acquire q
    purgeLoop q fuel (← gets fun s => (s.proc pointer).next)

/-- `purge_queue`. -/
def purgeQueue (q : QId) : SchedM Unit := do
  acquire q
  purgeLoop q NPROC (← gets fun s => (s.queue q).head)
  release q

/-- `shift_queue`. -/
def shiftQueue (q : QId) : SchedM Unit := do
  match (← gets fun s => (s.queue q).head) with
  | none =>
    acquire q
    release q
  | some oldHead =>
    if (← gets fun s => (s.proc oldHead).state) = .running then
      halt "Removing running proc"
    else
      acquire q
      match (← gets fun s => (s.proc oldHead).next) with
      | none =>
        let _ ← unclaimProc oldHead
        removeProcFromQueue oldHead (some q)
        release q
      | some newHead =>
        if (← gets fun s => (s.proc oldHead).state) = .runnable then
          insertProcIntoQueue oldHead (some .ready)
        update fun s => s.setProc newHead fun p => { p with prev := none }
        update fun s => s.setQueue q fun pq => { pq with head := some newHead }
        update fun s => s.setProc oldHead fun p => { p with next := none }
        let _ ← unclaimProc oldHead
        release q
        if (← gets fun s => (s.proc oldHead).state) = .runnable then
          insertProcIntoQueue oldHead (some .ready)
        let pq ← gets fun s => s.queue q
        if pq.head ≠ none ∧ pq.head = pq.tail then
          halt "head eq tail"

/-- The CPUs `queues_need_balance` looks at: those below `num_cpus()`. -/
def Env.cpus (e : Env) : List CpuId :=
  (List.finRange NCPU).filter fun c => c.val < e.ncpu

/-- `queues_need_balance`, with the bit mask as a predicate on CPUs. -/
def queuesNeedBalance : SchedM (CpuId → Bool) :=
  gets fun s =>
    let idealQueueLen := ((s.cpus.map fun c => (s.queue (.run c)).len).sum).tdiv s.ncpu
    let paddedIdeal := (idealQueueLen * 125).tdiv 100
    fun c => c.val < s.ncpu && decide ((s.queue (.run c)).len > paddedIdeal)

/-- The body of the loop of `do_balance`. -/
def balanceOne (rqMask : CpuId → Bool) (c : CpuId) : SchedM Unit := do
  if rqMask c then
    match (← gets fun s => (s.queue (.run c)).tail) with
    | none => pure ()
    | some p2migrate =>
      removeProcFromQueue p2migrate (← gets fun s => (s.proc p2migrate).curr)
      insertProcIntoQueue p2migrate (some .ready)

/-- `do_balance`. -/
def doBalance (rqMask : CpuId → Bool) : SchedM Unit := do
  (← gets fun s => s.cpus).forM (balanceOne rqMask)

end Xv6Rework
