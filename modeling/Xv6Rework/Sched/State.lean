import Xv6Rework.Lib.Prog
import Mathlib.Logic.Function.Basic
import Mathlib.Algebra.GroupWithZero.Nat

/-!
# The scheduler's data model

The process table of `kernel/sched/proc.h`, the process queues of
`kernel/data/queue.h` and the per-CPU state the scheduler reads, as one record
`Sched`.  Pointers to processes are slots of the process table, with null as
`none`; a pointer to a queue is the queue's name.

A `Proc` is a `Task` together with the two link fields of the queues.  The
split is ours and carries the abstract scheduler of `Sched/Abstract.lean`,
which keeps the tasks and replaces the links by lists.

Fields of `struct proc` that belong to memory and to open files (`sz`,
`pgdir`, `kstack`, `tf`, `ofile`, `cwd`, `name`) are left out: no function of
the scheduler reads them.
-/

namespace Xv6Rework

/-- `NPROC`, `param.h`. -/
def NPROC : Nat := 64

/-- `NCPU`, `param.h`. -/
def NCPU : Nat := 8

instance : NeZero NPROC := ⟨by decide⟩

theorem nproc_pos : 0 < NPROC := by decide

instance : NeZero NCPU := ⟨by decide⟩

/-- A slot of `ptable.proc`, standing for a non-null `struct proc *`. -/
abbrev PId := Fin NPROC

/-- An index of `cpus` and of `runqueue`. -/
abbrev CpuId := Fin NCPU

/-- `enum procstate`. -/
inductive ProcState where
  | unused | embryo | sleeping | runnable | running | zombie | wait | preempted
deriving DecidableEq, Repr

/-- The three kinds of `struct pqueue` there are. -/
inductive QId where
  | run (c : CpuId)
  | sleep
  | ready
deriving DecidableEq, Repr

/-- A wait channel: null, the address of a process (`wait` sleeps on the
caller, `exit` wakes the parent), or the address of anything else. -/
inductive Chan where
  | null
  | proc (p : PId)
  | addr (a : Nat)
deriving DecidableEq, Repr

/-- The channel a pointer to a process is. -/
def Chan.ofProc : Option PId → Chan
  | none => .null
  | some p => .proc p

/-- Where a process that is switched to goes on: `p->context`. -/
inductive Context where
  | forkret | inSleep | inYield | inExit
deriving DecidableEq, Repr

/-- `URGENT`, `proc.h`. -/
def URGENT : Int8 := 1
/-- `LOW_USER_PRIORITY`, `proc.h`. -/
def LOW_USER_PRIORITY : Int8 := 1
/-- `MED_USER_PRIORITY`, `proc.h`. -/
def MED_USER_PRIORITY : Int8 := 3
/-- `DEFAULT_USER_TIME_QUANTUM`, `proc.h`. -/
def DEFAULT_USER_TIME_QUANTUM : Int32 := 45

/-- `struct proc` without its links.  `inQueue` is the bit `IN_QUEUE` of
`queue_mask`, the only one that is ever used, and `currCpu = none` is
`NOCPU`. -/
structure Task where
  state : ProcState
  pid : Int32
  parent : Option PId
  chan : Chan
  killed : Bool
  pSig : BitVec 32
  pIgn : BitVec 32
  pPri : Int8
  pFlag : Int8
  pTimeQuantum : Int32
  pCpuUsage : Int32
  inQueue : Bool
  childSamePri : Bool
  currCpu : Option CpuId
  curr : Option QId
  context : Context
deriving DecidableEq, Repr

/-- `struct proc`. -/
structure Proc extends Task where
  next : Option PId
  prev : Option PId
deriving DecidableEq, Repr

/-- `struct pqueue`; `qloc` says whether the lock is held. -/
structure PQueue where
  qloc : Bool
  head : Option PId
  tail : Option PId
  len : Int
deriving DecidableEq, Repr

/-- What a CPU is doing: looping in `scheduler`, running the process `c->proc`,
or back in `scheduler` after that process switched away and before
`shift_queue`. -/
inductive Mode where
  | scheduling | executing | returning
deriving DecidableEq, Repr

/-- `struct cpu`, as far as the scheduler uses it. -/
structure Cpu where
  mode : Mode
  proc : Option PId
deriving DecidableEq, Repr

/-- `struct cpu_avg`. -/
structure CpuAvg where
  totalCpuTime : UInt32
  nProcs : UInt32
  avg : UInt32
deriving DecidableEq, Repr

/-- The globals of the scheduler other than the process table and the queues. -/
structure Env where
  nextpid : Int32
  initproc : Option PId
  ncpu : Nat
  cpu : CpuId → Cpu
  cAvg : CpuAvg

/-- Store to a CPU's record. -/
def Env.setCpu (e : Env) (c : CpuId) (f : Cpu → Cpu) : Env :=
  { e with cpu := Function.update e.cpu c (f (e.cpu c)) }

/-- The state of the scheduler. -/
structure Sched extends Env where
  proc : PId → Proc
  queue : QId → PQueue
  checkLock : Bool

/-- Code that runs on the scheduler's state. -/
abbrev SchedM := Prog Sched

namespace Sched

/-- Store to a process. -/
def setProc (s : Sched) (p : PId) (f : Proc → Proc) : Sched :=
  { s with proc := Function.update s.proc p (f (s.proc p)) }

/-- Store to a queue. -/
def setQueue (s : Sched) (q : QId) (f : PQueue → PQueue) : Sched :=
  { s with queue := Function.update s.queue q (f (s.queue q)) }

/-- Store to a CPU's record. -/
def setCpu (s : Sched) (c : CpuId) (f : Cpu → Cpu) : Sched :=
  { s with toEnv := s.toEnv.setCpu c f }

section

variable (s : Sched) (p p' : PId) (q q' : QId) (c : CpuId) (f : Proc → Proc)
  (g : PQueue → PQueue) (k : Cpu → Cpu)

@[simp] theorem setProc_proc_self : (s.setProc p f).proc p = f (s.proc p) := by simp [setProc]

variable {s p f} in
theorem setProc_congr {g : Proc → Proc} (h : f (s.proc p) = g (s.proc p)) :
    s.setProc p f = s.setProc p g := by
  simp only [setProc, h]

theorem setProc_setProc (g : Proc → Proc) :
    (s.setProc p f).setProc p g = s.setProc p (g ∘ f) := by
  simp only [setProc, Function.update_self, Function.update_idem, Function.comp]

theorem setProc_proc : (s.setProc p f).proc p' = if p' = p then f (s.proc p) else s.proc p' := by
  simp [setProc, Function.update_apply]

@[simp] theorem setProc_queue : (s.setProc p f).queue = s.queue := rfl
@[simp] theorem setProc_checkLock : (s.setProc p f).checkLock = s.checkLock := rfl
@[simp] theorem setProc_toEnv : (s.setProc p f).toEnv = s.toEnv := rfl

@[simp] theorem setQueue_queue_self : (s.setQueue q g).queue q = g (s.queue q) := by
  simp [setQueue]

theorem setQueue_queue :
    (s.setQueue q g).queue q' = if q' = q then g (s.queue q) else s.queue q' := by
  simp [setQueue, Function.update_apply]

@[simp] theorem setQueue_proc : (s.setQueue q g).proc = s.proc := rfl
@[simp] theorem setQueue_checkLock : (s.setQueue q g).checkLock = s.checkLock := rfl
@[simp] theorem setQueue_toEnv : (s.setQueue q g).toEnv = s.toEnv := rfl

@[simp] theorem setCpu_proc : (s.setCpu c k).proc = s.proc := rfl
@[simp] theorem setCpu_queue : (s.setCpu c k).queue = s.queue := rfl
@[simp] theorem setCpu_checkLock : (s.setCpu c k).checkLock = s.checkLock := rfl

end

end Sched

end Xv6Rework
