import Xv6Rework.Sched.Partition

/-!
# Killing and signalling

`kill` and `sig` of `kernel/sched/proc.c`, and the machine of `Sched/Proc.lean`
with these two calls added.

Both calls look for a process by its pid and make it `RUNNABLE` by a store to
its `state`.  Neither looks at the queues.  So a process that was asleep stays
in `sleepqueue`, where the scheduler does not look for it, and a later wakeup
on its channel finds a process in `sleepqueue` that is not asleep, and panics.
The queues themselves stay well formed: the machine keeps `Inv True`.
-/

namespace Xv6Rework

open Prog

/-! ## The two calls -/

/-- `TOP_PRIORITY`, `proc.h`. -/
def TOP_PRIORITY : Int8 := 10
/-- `ESIG`, `proc.h`. -/
def ESIG : Int32 := 1000000000
/-- `ENOPROC`, `proc.h`. -/
def ENOPROC : Int32 := 1000000001

/-- `SIGHUP`. -/
def SIGHUP : BitVec 32 := 1
/-- `SIGINT`. -/
def SIGINT : BitVec 32 := 2
/-- `SIGSEG`. -/
def SIGSEG : BitVec 32 := 4
/-- `SIGKILL`. -/
def SIGKILL : BitVec 32 := 8
/-- `SIGPIPE`. -/
def SIGPIPE : BitVec 32 := 16
/-- `SIGSYS`. -/
def SIGSYS : BitVec 32 := 32

/-- The slot the loop of `kill` stops at. -/
def Sched.findPid (s : Sched) (pid : Int32) : Option PId :=
  (List.finRange NPROC).find? fun p => (s.proc p).pid = pid

/-- The slot the loop of `sig` stops at. -/
def Sched.findUsed (s : Sched) (pid : Int32) : Option PId :=
  (List.finRange NPROC).find? fun p =>
    decide ((s.proc p).pid = pid) && decide ((s.proc p).state ≠ .unused)

/-- `kill`. -/
def kill (pid : Int32) : SchedM Int32 := do
  match (← gets fun s => s.findPid pid) with
  | none => pure (-1)
  | some p =>
    update fun s => s.setProc p fun x => { x with killed := true }
    if (← gets fun s => (s.proc p).state) = .sleeping then
      update fun s => s.setProc p fun x => { x with state := .runnable }
    pure 0

/-- The test at the start of `sig`: `sigmask`, as a signed number, is not above the
bitwise *and* of all signals. -/
def validMask (sigmask : BitVec 32) : Bool :=
  sigmask.sle (SIGKILL &&& SIGSEG &&& SIGINT &&& SIGPIPE &&& SIGHUP &&& SIGSYS &&& SIGCPU)

/-- `sig`. -/
def sig (sigmask : BitVec 32) (pid : Int32) : SchedM Int32 := do
  if !validMask sigmask then
    pure ESIG
  else
    match (← gets fun s => s.findUsed pid) with
    | none => pure ENOPROC
    | some p =>
      update fun s => s.setProc p fun x => { x with pSig := x.pSig ||| sigmask }
      if (← gets fun s => (s.proc p).state) ≠ .running then
        update fun s => s.setProc p fun x => { x with state := .runnable }
      update fun s => s.setProc p fun x => { x with pPri := TOP_PRIORITY }
      pure 0

/-- The signals are different bits: `sig` accepts no positive mask. -/
theorem validMask_iff (sigmask : BitVec 32) : validMask sigmask = true ↔ sigmask.toInt ≤ 0 := by
  rw [validMask, show SIGKILL &&& SIGSEG &&& SIGINT &&& SIGPIPE &&& SIGHUP &&& SIGSYS &&&
    SIGCPU = 0#32 from rfl, BitVec.sle, decide_eq_true_eq, BitVec.toInt_zero]

/-! ## What `sig` accepts -/

/-- All signals. -/
def SIGNALS : BitVec 32 := SIGHUP ||| SIGINT ||| SIGSEG ||| SIGKILL ||| SIGPIPE |||
    SIGSYS ||| SIGCPU

/-- A combination of signals that is not empty. -/
def IsMask (sigmask : BitVec 32) : Prop := sigmask ≠ 0 ∧ sigmask &&& SIGNALS = sigmask

/-- `sig` validates its arguments: it refuses what is no combination of signals and what names
no process, and otherwise adds the signals to a process with that pid, and only to that one.
Processes that are new, running or gone keep their state. -/
structure Validates (sigmask : BitVec 32) (pid : Int32) (s : Sched) : Prop where
  bad : ¬IsMask sigmask → sig sigmask pid s = (.ok ESIG, s)
  missing : IsMask sigmask → (∀ p, (s.proc p).pid = pid → (s.proc p).state = .unused) →
    sig sigmask pid s = (.ok ENOPROC, s)
  sent : IsMask sigmask → (∃ p, (s.proc p).pid = pid ∧ (s.proc p).state ≠ .unused) →
    ∃ s' p, sig sigmask pid s = (.ok 0, s') ∧ (s.proc p).pid = pid ∧ (s.proc p).state ≠ .unused ∧
      (s'.proc p).pSig = (s.proc p).pSig ||| sigmask ∧
      (∀ q, q ≠ p → (s'.proc q).pSig = (s.proc q).pSig) ∧ ∀ q, (s.proc q).state = .embryo ∨
      (s.proc q).state = .zombie ∨ (s.proc q).state = .running →
        (s'.proc q).state = (s.proc q).state

/-- The combinations of the seven signals are the numbers from 1 to 127. -/
theorem isMask_iff (sigmask : BitVec 32) : IsMask sigmask ↔ 0 < sigmask.toInt ∧
    sigmask.toInt ≤ 127 := by
  have hsig : (sigmask &&& SIGNALS).toNat = sigmask.toNat % 2 ^ 7 := by
    rw [BitVec.toNat_and, show SIGNALS.toNat = 2 ^ 7 - 1 from rfl, Nat.and_two_pow_sub_one_eq_mod]
  rw [IsMask, ← BitVec.toNat_inj, hsig, ne_eq, ← BitVec.toNat_inj, show (0 : BitVec 32).toNat =
    0 from rfl, BitVec.toInt_eq_toNat_cond]
  split <;> omega

/-! ## The machine with `kill` and `sig` -/

/-- An atomic step of the machine, or a `kill` or `sig` by the process on a CPU. -/
inductive Call where
  | act (act : Act)
  | kill (c : CpuId) (pid : Int32)
  | sig (c : CpuId) (sigmask : BitVec 32) (pid : Int32)
deriving DecidableEq, Repr

/-- The code a call runs. -/
def Call.exec : Call → SchedM Unit
  | .act x => Xv6Rework.exec x
  | .kill c pid => do let _ ← myproc c; let _ ← Xv6Rework.kill pid
  | .sig c sigmask pid => do let _ ← myproc c; let _ ← Xv6Rework.sig sigmask pid

/-- A step: the code of the call returns. -/
def CallStep (s : Sched) (call : Call) (s' : Sched) : Prop := call.exec s = (.ok (), s')

/-- `s` represents an abstract state in which processes may have been hit. -/
def Disturbed (s : Sched) : Prop := ∃ a, Sim s a ∧ Inv True a

section

variable {s s' : Sched} {a : Abs} {p q : PId} {pid : Int32} {sigmask : BitVec 32}

/-! ## What the calls do -/

/-- What `kill` does to the process it finds. -/
def Task.kill (t : Task) : Task :=
  { t with killed := true, state := if t.state = .sleeping then .runnable else t.state }

/-- What an accepted `sig` does to the process it finds. -/
def Task.sig (sigmask : BitVec 32) (t : Task) : Task :=
  { t with
    pSig := t.pSig ||| sigmask
    state := if t.state = .running then .running else .runnable
    pPri := TOP_PRIORITY }

theorem kill_eq (pid : Int32) (s : Sched) : kill pid s = match s.findPid pid with
    | none => (.ok (-1), s)
    | some p => (.ok 0, s.setProc p fun x => { x with toTask := x.toTask.kill }) := by
  rcases hp : s.findPid pid with _ | p
  · simp [kill, hp]
  · by_cases hst : (s.proc p).state = .sleeping <;>
      simp [kill, hp, hst, Task.kill, Sched.setProc]

theorem sig_eq (sigmask : BitVec 32) (pid : Int32) (s : Sched) : sig sigmask pid s =
    if validMask sigmask then
      match s.findUsed pid with
      | none => (.ok ENOPROC, s)
      | some p => (.ok 0, s.setProc p fun x => { x with toTask := x.toTask.sig sigmask })
    else (.ok ESIG, s) := by
  by_cases hv : validMask sigmask
  · rcases hp : s.findUsed pid with _ | p
    · simp [sig, hv, hp]
    · by_cases hst : (s.proc p).state = .running <;>
        simp [sig, hv, hp, hst, Task.sig, Sched.setProc]
  · simp [sig, hv]

theorem Sched.findUsed_used (h : s.findUsed pid = some p) :
    (s.proc p).pid = pid ∧ (s.proc p).state ≠ .unused := by
  simpa [Bool.and_eq_true] using List.find?_some h

/-- What is accepted never leads to `ESIG`. -/
theorem sig_ne_ESIG (hv : validMask sigmask = true) : (sig sigmask pid s).1 ≠ .ok ESIG := by
  rw [sig_eq, if_pos hv]
  split <;> simp [ESIG, ENOPROC]

/-- `sig` has its check the wrong way round: of the right masks it accepts none, of the wrong
ones all that are not positive.  It validates only where it refuses a number that is too large. -/
theorem validates_iff (sigmask : BitVec 32) (pid : Int32) (s : Sched) :
    Validates sigmask pid s ↔ 127 < sigmask.toInt := by
  by_cases hv : validMask sigmask = true
  · have hle := (validMask_iff sigmask).1 hv
    refine iff_of_false (fun h => ?_) (by omega)
    have hbad := h.bad fun hm => absurd ((isMask_iff sigmask).1 hm).1 (by omega)
    exact sig_ne_ESIG hv (congrArg Prod.fst hbad)
  · have hrun : sig sigmask pid s = (.ok ESIG, s) := by rw [sig_eq, if_neg hv]
    have hpos : 0 < sigmask.toInt := by
      rw [validMask_iff] at hv
      omega
    have hne : ∀ r s', r ≠ ESIG → sig sigmask pid s ≠ (.ok r, s') := fun r s' hr heq => by
      cases hrun.symm.trans heq
      exact hr rfl
    constructor
    · intro h
      by_contra hle
      have hm : IsMask sigmask := (isMask_iff sigmask).2 ⟨hpos, by omega⟩
      by_cases hp : ∃ p, (s.proc p).pid = pid ∧ (s.proc p).state ≠ .unused
      · obtain ⟨s', p, hsent, -⟩ := h.sent hm hp
        exact hne 0 s' (by decide) hsent
      · exact hne ENOPROC s (by decide) (h.missing hm fun p hpid => by_contra fun hu =>
          hp ⟨p, hpid, hu⟩)
    · intro hlt
      have hm : ¬IsMask sigmask := fun hm => absurd ((isMask_iff sigmask).1 hm).2 (by omega)
      exact ⟨fun _ => hrun, fun h => absurd h hm, fun h => absurd h hm⟩

/-! ## The invariant -/

/-- A change of state that a hit may make keeps the invariant. -/
theorem Inv.hit (hi : Inv True a) {f : Task → Task}
    (hst : ∀ dest, RestState True dest (a.task p).state → RestState True dest (f (a.task p)).state)
    (hu : (a.task p).state = .unused → (f (a.task p)).state = .unused)
    (hc : (f (a.task p)).curr = (a.task p).curr)
    (hq : (f (a.task p)).inQueue = (a.task p).inQueue)
    (hk : (f (a.task p)).currCpu = (a.task p).currCpu) : Inv True (a.setTask p f) := by
  obtain ⟨dest, hr⟩ := hi p
  refine hi.move p dest (fun p' e => by rw [Abs.setTask_task, if_neg e]) (fun _ _ _ => Iff.rfl)
    (fun _ _ _ => Iff.rfl) ⟨hr.mem_iff, hr.runningOn_iff, ?_, ?_, ?_⟩
  · rw [Abs.setTask_task_self]; exact hst dest hr.state
  · rw [Abs.setTask_task_self, hc]; exact hr.curr_eq
  · rw [Abs.setTask_task_self, Task.NoClaim, hq, hk]
    intro hn
    have hcl := hr.unclaimed fun h => hn (hu h)
    exact ⟨hcl.1, hcl.2.1, fun h => absurd trivial h⟩

theorem Inv.kill (hi : Inv True a) (p : PId) : Inv True (a.setTask p Task.kill) := by
  refine hi.hit (fun dest hd => ?_) (fun hu => by simp [Task.kill, hu]) rfl rfl rfl
  rw [Task.kill]
  split
  · next hs => rw [hd.sleeping hs]; exact .inr ⟨trivial, rfl⟩
  · exact hd

theorem Inv.sig (hi : Inv True a) (hp : (a.task p).state ≠ .unused) (sigmask : BitVec 32) :
    Inv True (a.setTask p (Task.sig sigmask)) := by
  refine hi.hit (fun dest hd => ?_) (fun hu => absurd hu hp) rfl rfl rfl
  rw [Task.sig]
  rcases dest with _ | ⟨_ | _ | _⟩ <;> simp only [RestState] at hd ⊢
  · rw [if_neg (by rcases hd with hd | hd | hd <;> simp [hd])]
    exact .inr (.inr ⟨trivial, rfl⟩)
  · simp [hd]
  · rw [if_neg (by rcases hd with hd | hd <;> simp [hd])]
    exact .inr ⟨trivial, rfl⟩
  · simp [hd]

/-- What `kill` leads to. -/
theorem Sim.kill (h : Sim s a) (hi : Inv True a) (pid : Int32) :
    ∃ r s' a', Xv6Rework.kill pid s = (.ok r, s') ∧ Sim s' a' ∧ Inv True a' ∧
      a' = match s.findPid pid with
        | none => a
        | some p => a.setTask p Task.kill := by
  rw [kill_eq]
  split
  · exact ⟨_, _, _, rfl, h, hi, rfl⟩
  · next p _ => exact ⟨_, _, _, rfl, h.setTask p Task.kill, hi.kill p, rfl⟩

/-- What `sig` leads to. -/
theorem Sim.sig (h : Sim s a) (hi : Inv True a) (sigmask : BitVec 32) (pid : Int32) :
    ∃ r s' a', Xv6Rework.sig sigmask pid s = (.ok r, s') ∧ Sim s' a' ∧ Inv True a' ∧
      a' = match if validMask sigmask then s.findUsed pid else none with
        | none => a
        | some p => a.setTask p (Task.sig sigmask) := by
  rw [sig_eq]
  split
  · split
    · exact ⟨_, _, _, rfl, h, hi, rfl⟩
    · next p hp =>
      have hu := (Sched.findUsed_used hp).2
      rw [h.task_eq] at hu
      exact ⟨_, _, _, rfl, h.setTask p (Task.sig sigmask), hi.sig hu sigmask, rfl⟩
  · exact ⟨_, _, _, rfl, h, hi, rfl⟩

/-- `myproc` changes nothing. -/
theorem of_myproc_then {c : CpuId} {x : SchedM Unit}
    (h : (do let _ ← myproc c; x) s = (.ok (), s')) : x s = (.ok (), s') := by
  obtain ⟨_, -, h⟩ := of_myproc_ok h
  exact h

/-- Every call keeps the invariant. -/
theorem CallStep.disturbed {call : Call} (hs : CallStep s call s') (hd : Disturbed s) :
    Disturbed s' := by
  obtain ⟨a, h, hi⟩ := hd
  cases call with
  | act x =>
    obtain ⟨a', h', hi', -⟩ := Step.spec hs h hi
    exact ⟨a', h', hi'⟩
  | kill c pid =>
    obtain ⟨r, t, hx, hs⟩ := bind_eq_ok (of_myproc_then hs)
    cases hs
    obtain ⟨_, _, a', hk, h', hi', -⟩ := h.kill hi pid
    obtain rfl := (Prod.mk.inj (hk.symm.trans hx)).2
    exact ⟨a', h', hi'⟩
  | sig c sigmask pid =>
    obtain ⟨r, t, hx, hs⟩ := bind_eq_ok (of_myproc_then hs)
    cases hs
    obtain ⟨_, _, a', hk, h', hi', -⟩ := h.sig hi sigmask pid
    obtain rfl := (Prod.mk.inj (hk.symm.trans hx)).2
    exact ⟨a', h', hi'⟩

theorem Booted.disturbed (h : Booted s) : Disturbed s := by
  obtain ⟨ncpu, -, -, hs⟩ := h
  obtain ⟨a, h, hi, -⟩ := of_leads ⟨_, userinit_leads True ncpu⟩ hs
  exact ⟨a, h, hi⟩

/-- The states the machine with `kill` and `sig` can reach. -/
abbrev CallReachable : Sched → Prop := Reach Booted CallStep

theorem CallReachable.disturbed (h : CallReachable s) : Disturbed s := by
  induction h with
  | init h => exact h.disturbed
  | step _ hs ih => exact hs.disturbed ih

/-- The machine without `kill` and `sig` reaches no more. -/
theorem Reachable.callReachable (h : Reachable s) : CallReachable s := by
  induction h with
  | init h => exact .init h
  | @step _ _ x _ hs ih => exact ih.step (a := .act x) hs

/-! ## A sleeper that is hit -/

/-- The process `q`, which slept on `chan`, has been made schedulable: it is in
`readyqueue`, the queues are well formed, and no later wakeup on `chan`
panics. -/
structure Schedulable (s : Sched) (q : PId) (chan : Chan) : Prop where
  runnable : (s.proc q).state = .runnable
  ready : (s.links .ready).count q = 1
  not_asleep : q ∉ s.links .sleep
  wf : ∀ r, QueueWf s r (s.links r)
  wakeup : ∀ t, Reach (· = s) CallStep t → ∀ msg u, wakeup1 chan t ≠ (.error (.panic msg), u)

/-- A `kill` of any sleeper, and every accepted `sig` to it, makes it schedulable. -/
def HitsSchedule (s : Sched) : Prop := ∀ q, (s.proc q).state = .sleeping →
  (∀ r s', kill (s.proc q).pid s = (.ok r, s') → Schedulable s' q (s.proc q).chan) ∧
  ∀ sigmask s', sig sigmask (s.proc q).pid s = (.ok 0, s') → Schedulable s' q (s.proc q).chan

/-- A process asleep is in `sleepqueue`, and is still there after a `kill`. -/
theorem Disturbed.kill_asleep (hd : Disturbed s) (hq : (s.proc q).state = .sleeping)
    (pid : Int32) : ∃ r s', kill pid s = (.ok r, s') ∧ q ∈ s'.links .sleep ∧
      q ∉ s'.links .ready ∧ ∀ r, QueueWf s' r (s'.links r) := by
  obtain ⟨a, h, hi⟩ := hd
  obtain ⟨r, s', a', hs', h', -, ha'⟩ := h.kill hi pid
  have hlist : a'.list = a.list := by
    rw [ha']
    split <;> rfl
  have hlinks : ∀ r, s'.links r = a.list r := fun r => by rw [(h'.wf r).links_eq, hlist]
  rw [h.task_eq] at hq
  have hm := hi.asleep hq
  refine ⟨r, s', hs', by rwa [hlinks], fun hr => ?_, fun r => ?_⟩
  · rw [hlinks] at hr
    cases h.disjoint _ _ q hr hm
  · rw [hlinks, ← hlist]
    exact h'.wf r

end

/-- A hit makes every sleeper schedulable exactly in the states without one. -/
theorem hitsSchedule_iff {s : Sched} (h : CallReachable s) :
    HitsSchedule s ↔ ∀ q, (s.proc q).state ≠ .sleeping := by
  constructor
  · intro hs q hq
    obtain ⟨r, s', hs', hm, -⟩ := h.disturbed.kill_asleep hq (s.proc q).pid
    exact ((hs q hq).1 r s' hs').not_asleep hm
  · exact fun hn q hq => absurd hq (hn q)

/-- At start-up nobody sleeps. -/
theorem hitsSchedule_boot : HitsSchedule (runFrom 1 []).2 :=
  (hitsSchedule_iff (Reachable.of_runFrom (by decide) (by decide)
    (by decide +kernel)).callReachable).mpr (by decide +kernel)

/-- `init` forks a child and sleeps; the child executes. -/
def initAsleep : Sched :=
  (runFrom 1 [.schedule 0, .fork 0 true true, .sleep 0 (.addr 1), .switchBack 0, .schedule 0]).2

/-- `SIGKILL` to `init` is refused, and all 32 bits at once are accepted. -/
theorem not_validates_initAsleep : (initAsleep.proc 0).pid = 1 ∧
    (initAsleep.proc 0).state ≠ .unused ∧ (sig SIGKILL 1 initAsleep).1 = .ok ESIG ∧
    ¬Validates SIGKILL 1 initAsleep ∧ (sig (-1) 1 initAsleep).1 = .ok 0 ∧
    ¬Validates (-1) 1 initAsleep := by
  have hpid : (initAsleep.proc 0).pid = 1 := by decide +kernel
  have hused : (initAsleep.proc 0).state ≠ .unused := by decide +kernel
  have hkill : (sig SIGKILL 1 initAsleep).1 = .ok ESIG := by decide +kernel
  have hall : (sig (-1) 1 initAsleep).1 = .ok 0 := by decide +kernel
  refine ⟨hpid, hused, hkill, fun h => ?_, hall, fun h => ?_⟩
  · obtain ⟨s', p, hsent, -⟩ := h.sent ((isMask_iff _).2 (by decide)) ⟨0, hpid, hused⟩
    rw [hsent] at hkill
    exact absurd (Except.ok.inj hkill) (by decide)
  · have hbad := h.bad fun hm => absurd ((isMask_iff _).1 hm) (by decide)
    rw [hbad] at hall
    exact absurd (Except.ok.inj hall) (by decide)

/-- After the child's `kill(1)`, `init` is `RUNNABLE` in `sleepqueue`, and the next
wakeup on its channel panics. -/
theorem not_hitsSchedule_initAsleep : CallReachable initAsleep ∧ ¬HitsSchedule initAsleep ∧
    (initAsleep.proc 0).state = .sleeping ∧
    ((kill 1 initAsleep).2.proc 0).state = .runnable ∧
    (0 : PId) ∈ (kill 1 initAsleep).2.links .sleep ∧
    (0 : PId) ∉ (kill 1 initAsleep).2.links .ready ∧
    (wakeup1 (.addr 1) (kill 1 initAsleep).2).1 = .error (.panic "stuck proc") := by
  have hr : CallReachable initAsleep :=
    (Reachable.of_runFrom (by decide) (by decide) (by decide +kernel)).callReachable
  have hst : (initAsleep.proc 0).state = .sleeping := by decide +kernel
  refine ⟨hr, fun h => ?_, hst, ?_⟩
  · obtain ⟨r, s', hs', hm, -⟩ := hr.disturbed.kill_asleep hst (initAsleep.proc 0).pid
    exact ((h 0 hst).1 r s' hs').not_asleep hm
  · decide +kernel

end Xv6Rework
