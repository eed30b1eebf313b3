import Xv6Rework.Data.Queue

/-!
# Processes and the scheduler

The functions of `kernel/sched/proc.c`, `kernel/sched/sched.c` and
`kernel/sched/signals.c` that create, switch, put to sleep, wake and end
processes, and the atomic steps of the machine they make up.

What the functions take from outside the scheduler is an argument: whether
`kalloc` finds a page for a kernel stack, and whether `copyuvm` can copy the
parent's memory.  The parts that deal with memory, open files and the trap
frame are left out.

`ptable.lock` is not in the state.  It is held from the state change of a
process until `shift_queue` has run, or for the whole of `wakeup`, `exit` and
`wait`; a step below is such a stretch of code.
-/

namespace Xv6Rework

open Prog

/-! ## Allocation and start-up -/

/-- `allocproc`. -/
def allocproc (kalloc : Bool) : SchedM (Option PId) := do
  match (← gets fun s => (List.finRange NPROC).find? fun p => (s.proc p).state = .unused) with
  | none => pure none
  | some p =>
    let nextpid ← gets fun s => s.nextpid
    update fun s => s.setProc p fun x => { x with state := .embryo, pid := nextpid }
    update fun s => { s with nextpid := nextpid + 1 }
    if kalloc then
      update fun s => s.setProc p fun x => { x with context := .forkret }
      pure (some p)
    else
      update fun s => s.setProc p fun x => { x with state := .unused }
      pure none

/-- A process table slot as the kernel is loaded: all zero. -/
def Task.zero : Task where
  state := .unused
  pid := 0
  parent := none
  chan := .null
  killed := false
  pSig := 0
  pIgn := 0
  pPri := 0
  pFlag := 0
  pTimeQuantum := 0
  pCpuUsage := 0
  inQueue := false
  childSamePri := true
  currCpu := some 0
  curr := none
  context := .forkret

/-- The scheduler's globals as the kernel is loaded, on a machine with `ncpu`
processors whose schedulers are about to start. -/
def Sched.boot (ncpu : Nat) : Sched where
  nextpid := 1
  initproc := none
  ncpu := ncpu
  cpu _ := ⟨.scheduling, none⟩
  cAvg := ⟨0, 0, 25⟩
  proc _ := { Task.zero with next := none, prev := none }
  queue _ := ⟨false, none, none, 0⟩
  checkLock := false

/-- The loop at the start of `userinit`. -/
def initRunqueues : SchedM Unit := do
  let ncpus ← gets fun s => s.ncpu
  if ncpus = 0 then
    initprocqueue (.run 0)
  else
    (← gets fun s => s.cpus).forM fun c => initprocqueue (.run c)

/-- `userinit`. -/
def userinit : SchedM Unit := do
  initRunqueues
  initprocqueue .sleep
  initprocqueue .ready
  match (← allocproc true) with
  | none => halt "PAGE FAULT"
  | some p =>
    update fun s => { s with initproc := some p }
    update fun s => s.setProc p fun x => { x with
      pTimeQuantum := DEFAULT_USER_TIME_QUANTUM, childSamePri := true, pPri := MED_USER_PRIORITY
      pIgn := 0, pSig := 0 }
    update fun s => s.setProc p fun x => { x with
      state := .runnable, next := none, prev := none, inQueue := false, currCpu := none }
    insertProcIntoQueue p (some .ready)

/-! ## Creating processes -/

/-- The priority `fork` gives to a child. -/
def childPri (curproc : Task) : Int8 :=
  if curproc.childSamePri then curproc.pPri
  else if curproc.pPri = 0 then LOW_USER_PRIORITY else curproc.pPri - 1

/-- `fork`, returning the child's pid, or `none` for `-1`.  The child's `killed`,
`chan` and `child_pri` are whatever the slot held before. -/
def fork (curproc : PId) (kalloc copyuvm : Bool) : SchedM (Option Int32) := do
  match (← allocproc kalloc) with
  | none => pure none
  | some np =>
    if copyuvm then
      let parent ← gets fun s => (s.proc curproc).toTask
      let quantum := parent.pCpuUsage / 2
      update fun s => s.setProc np fun x => { x with
        parent := some curproc, pFlag := 0, inQueue := false, pPri := childPri parent
        pCpuUsage := 0, pTimeQuantum := quantum }
      update fun s => s.setProc curproc fun x => { x with pTimeQuantum := x.pTimeQuantum - quantum }
      update fun s => s.setProc np fun x => { x with
        pIgn := 0, pSig := 0, next := none, prev := none, currCpu := none, curr := none }
      update fun s => s.setProc np fun x => { x with state := .runnable }
      insertProcIntoQueue np (some .ready)
      some <$> gets fun s => (s.proc np).pid
    else
      update fun s => s.setProc np fun x => { x with state := .unused }
      pure none

/-! ## Giving up the CPU -/

/-- `swtch` from the process `p` to the scheduler of CPU `c`. -/
def swtchBack (c : CpuId) (p : PId) (ctx : Context) : SchedM Unit := do
  update fun s => s.setProc p fun x => { x with context := ctx }
  update fun s => s.setCpu c fun k => { k with mode := .returning }

/-- `sched`, called by the process `p` on CPU `c`.  `unclaim_proc` resets
`curr_cpu` to `NOCPU`, and the index that follows then lies far outside
`runqueue`. -/
def sched (c : CpuId) (p : PId) (ctx : Context) : SchedM Unit := do
  if (← gets fun s => (s.proc p).state) = .running then
    halt "sched running"
  if (← gets fun s => (s.proc p).currCpu) ≠ none then
    let _ ← unclaimProc p
    match (← gets fun s => (s.proc p).currCpu) with
    | some k => removeProcFromQueue p (some (.run k))
    | none => halt "PAGE FAULT"
  if (← gets fun s => (s.proc p).state) = .preempted then
    update fun s => s.setProc p fun x => { x with
      pPri := LOW_USER_PRIORITY, state := .runnable, curr := none }
    insertProcIntoQueue p (some .ready)
  else if (← gets fun s => (s.proc p).state) = .runnable then
    match (← gets fun s => (s.proc p).curr) with
    | some q =>
      removeProcFromQueue p (some q)
      insertProcIntoQueue p (some .ready)
    | none => insertProcIntoQueue p (some .ready)
  swtchBack c p ctx

/-- `yield`. -/
def yield (c : CpuId) (p : PId) : SchedM Unit := do
  update fun s => s.setProc p fun x => { x with state := .runnable }
  purgeQueue (.run c)
  sched c p .inYield

/-- `preempt`. -/
def preempt (c : CpuId) (p : PId) : SchedM Unit := do
  update fun s => s.setProc p fun x => { x with state := .preempted }
  purgeQueue (.run c)
  sched c p .inYield

/-- How `sleep` and `exit` take the running process off whatever queue it is
on. -/
def leaveQueue (p : PId) : SchedM Unit := do
  match (← gets fun s => (s.proc p).currCpu) with
  | some k =>
    removeProcFromQueue p (some (.run k))
    update fun s => s.setProc p fun x => { x with currCpu := none }
  | none =>
    match (← gets fun s => (s.proc p).curr) with
    | some q => removeProcFromQueue p (some q)
    | none => pure ()

/-- `sleep`, up to its switch to the scheduler. -/
def sleep (c : CpuId) (p : PId) (chan : Chan) : SchedM Unit := do
  update fun s => s.setProc p fun x => { x with chan := chan, state := .sleeping }
  leaveQueue p
  insertProcIntoQueue p (some .sleep)
  sched c p .inSleep

/-! ## Waking, ending and waiting -/

/-- The loop of `wakeup1`.  The step to `p->next` is taken after `p` may have been
moved to `readyqueue`. -/
def wakeupLoop (chan : Chan) : Nat → Option PId → SchedM Unit
  | _, none => pure ()
  | 0, some _ => stop .hang
  | fuel + 1, some p => do
    let t ← gets fun s => (s.proc p).toTask
    if t.state = .sleeping ∧ t.chan = chan then
      removeProcFromQueue p (some .sleep)
      update fun s => s.setProc p fun x => { x with state := .runnable }
      insertProcIntoQueue p (some .ready)
      update fun s => s.setProc p fun x => { x with pFlag := URGENT, pPri := x.pPri + 1 }
    else if t.chan = chan then
      halt "stuck proc"
    wakeupLoop chan fuel (← gets fun s => (s.proc p).next)

/-- `wakeup1`. -/
def wakeup1 (chan : Chan) : SchedM Unit := do
  wakeupLoop chan NPROC (← gets fun s => (s.queue .sleep).head)

/-- `update_cpu_avg`. -/
def CpuAvg.add (a : CpuAvg) (ticks : UInt32) : CpuAvg :=
  let total := a.totalCpuTime + ticks
  let n := a.nProcs + 1
  ⟨total, n, total / n⟩

/-- The body of the loop in which `exit` passes its children to `init`. -/
def reparent (curproc p : PId) : SchedM Unit := do
  if (← gets fun s => (s.proc p).parent) = some curproc then
    let init ← gets fun s => s.initproc
    update fun s => s.setProc p fun x => { x with parent := init }
    wakeup1 (.ofProc init)

/-- `exit`, up to its switch to the scheduler, from which it never returns. -/
def exit (c : CpuId) (curproc : PId) : SchedM Unit := do
  if (← gets fun s => s.initproc) = some curproc then
    halt "initproc exiting"
  wakeup1 (.ofProc (← gets fun s => (s.proc curproc).parent))
  (List.finRange NPROC).forM (reparent curproc)
  update fun s => s.setProc curproc fun x => { x with state := .zombie, killed := true }
  update fun s => { s with
    nextpid := (s.proc curproc).pid
    cAvg := s.cAvg.add (s.proc curproc).pCpuUsage.toUInt32 }
  leaveQueue curproc
  sched c curproc .inExit

/-- One round of the loop of `wait`: reap a zombie child and return its pid, give
up with `-1`, or go to sleep on the caller's own address. -/
def wait (c : CpuId) (curproc : PId) : SchedM (Option Int32) := do
  let isChild ← gets fun s p => decide ((s.proc p).parent = some curproc)
  match (← gets fun s => (List.finRange NPROC).find? fun p =>
      isChild p && decide ((s.proc p).state = .zombie)) with
  | some p =>
    let pid ← gets fun s => (s.proc p).pid
    update fun s => s.setProc p fun x => { x with
      pid := 0, parent := none, killed := false, state := .unused }
    pure (some pid)
  | none =>
    if !(List.finRange NPROC).any isChild || (← gets fun s => (s.proc curproc).killed) then
      pure none
    else
      sleep c curproc (.proc curproc)
      pure none

/-! ## The scheduler loop -/

/-- `SIGKILL | SIGSEG | SIGPIPE`, the signals that are always fatal. -/
def fatalSignals : BitVec 32 := 8 ||| 4 ||| 16
/-- `SIGCPU`. -/
def SIGCPU : BitVec 32 := 64

/-- `handle_signals`, as `scheduler` calls it.  For `SIGCPU` it clears the signal and releases
`ptable.lock`, which the scheduler does not hold there. -/
def handleSignals (p : PId) : SchedM Unit := do
  let t ← gets fun s => (s.proc p).toTask
  if t.pSig &&& fatalSignals ≠ 0 then
    update fun s => s.setProc p fun x => { x with killed := true }
  if t.pSig &&& SIGCPU ≠ 0 then
    update fun s => s.setProc p fun x => { x with pSig := x.pSig &&& ~~~SIGCPU }
    halt "release"
  if t.pIgn = 0 then
    update fun s => s.setProc p fun x => { x with killed := true }
  else if t.pIgn &&& t.pSig ≠ 0 then
    update fun s => s.setProc p fun x => { x with pSig := 0 }
  else
    update fun s => s.setProc p fun x => { x with killed := true }

/-- The pick-up: move the head of `readyqueue` to this CPU's run queue. -/
def pickUp (c : CpuId) : SchedM Unit := do
  match (← gets fun s => (s.queue .ready).head) with
  | none => pure ()
  | some p =>
    if (← gets fun s => (s.proc p).pSig) ≠ 0 then
      handleSignals p
    if (← gets fun s => (s.proc p).curr) = some .ready then
      if (← claimProc p c) then
        removeProcFromQueue p (some .ready)
        insertProcIntoQueue p (some (.run c))

/-- From the label `sched` of `scheduler` to the process it switches to going on:
a process that slept clears its channel. -/
def switchTo (c : CpuId) : SchedM Unit := do
  match (← gets fun s => (s.queue (.run c)).head) with
  | none => pure ()
  | some p =>
    update fun s => s.setCpu c fun _ => ⟨.executing, some p⟩
    update fun s => s.setProc p fun x => { x with state := .running }
    if (← gets fun s => (s.proc p).context) = .inSleep then
      update fun s => s.setProc p fun x => { x with chan := .null }

/-- One round of the loop of `scheduler`, up to `swtch`. -/
def scheduler (c : CpuId) : SchedM Unit := do
  if (← isQueueEmpty .ready) && (← isQueueEmpty (.run c)) then
    doBalance (← queuesNeedBalance)
  else
    pickUp c
    switchTo c

/-- The rest of the round, after the process has switched back. -/
def switchBack (c : CpuId) : SchedM Unit := do
  shiftQueue (.run c)
  update fun s => s.setCpu c fun _ => ⟨.scheduling, none⟩

/-! ## The machine -/

/-- An atomic step of the machine. -/
inductive Act where
  | schedule (c : CpuId)
  | fork (c : CpuId) (kalloc copyuvm : Bool)
  | yield (c : CpuId)
  | preempt (c : CpuId)
  | sleep (c : CpuId) (chan : Chan)
  | wakeup (chan : Chan)
  | exit (c : CpuId)
  | wait (c : CpuId)
  | balance
  | switchBack (c : CpuId)
deriving DecidableEq, Repr

/-- The process executing on CPU `c`. -/
def Env.runningOn (e : Env) (c : CpuId) : Option PId :=
  if c.val < e.ncpu ∧ (e.cpu c).mode = .executing then (e.cpu c).proc else none

/-- `myproc`, on a CPU that is executing a process; a step of another CPU is not
enabled. -/
def myproc (c : CpuId) : SchedM PId := do
  match (← gets fun s => s.runningOn c) with
  | some p => pure p
  | none => stop .hang

/-- Go on only if CPU `c` exists and is in the given mode. -/
def inMode (c : CpuId) (m : Mode) : SchedM Unit := do
  if (← gets fun s => decide (c.val < s.ncpu ∧ (s.cpu c).mode = m)) then
    pure ()
  else
    stop .hang

/-- The code a step runs. -/
def exec : Act → SchedM Unit
  | .schedule c => do inMode c .scheduling; scheduler c
  | .fork c kalloc copyuvm => do let _ ← fork (← myproc c) kalloc copyuvm
  | .yield c => do yield c (← myproc c)
  | .preempt c => do preempt c (← myproc c)
  | .sleep c chan => do sleep c (← myproc c) chan
  | .wakeup chan => wakeup1 chan
  | .exit c => do exit c (← myproc c)
  | .wait c => do let _ ← wait c (← myproc c)
  | .balance => do doBalance (← queuesNeedBalance)
  | .switchBack c => do inMode c .returning; switchBack c

/-- A step: the code of the action returns. -/
def Step (s : Sched) (act : Act) (s' : Sched) : Prop := exec act s = (.ok (), s')

end Xv6Rework
