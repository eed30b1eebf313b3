import Xv6Rework.Sched.Frames

/-!
# Priorities and time quanta

The machine of `Sched/Signal.lean` with two more events: a timer tick, which counts for the
process that executes, and a process that changes its `child_pri`.

A wakeup adds one to the priority of the process it wakes, whatever it is, and a `fork` by
a process with `CHILD_DIFF_PRI` takes one away.  So the priorities stay between
`LOW_USER_PRIORITY` and `TOP_PRIORITY` in all states of a run exactly if it wakes no process
at the top and has no such `fork` at the bottom.

A `fork` moves half of the ticks counted so far, and not half of the time quantum, from the
parent to the child.  Nothing ever resets the count.  So the quanta stay non-negative exactly
if every `fork` finds no more than twice the quantum counted.
-/

namespace Xv6Rework

open Prog

/-! ## What a `fork` does to the accounts -/

/-- The slot `allocproc` takes. -/
def Sched.freeSlot (s : Sched) : Option PId :=
  (List.finRange NPROC).find? fun p => (s.proc p).state = .unused

/-- `s'` is `s` after `p` has forked a child into the slot `np`. -/
structure Forks (s : Sched) (p np : PId) (s' : Sched) : Prop where
  other : ∀ x, x ≠ np → x ≠ p → s'.account x = s.account x
  parent : s'.account p = { s.account p with
    pTimeQuantum := (s.account p).pTimeQuantum - (s.account p).pCpuUsage / 2 }
  child : s'.account np = ⟨.runnable, childPri (s.proc p).toTask, (s.account p).pCpuUsage / 2, 0,
    (s.account np).childSamePri⟩

section

variable {s s' : Sched} {p np : PId} {kalloc copyuvm : Bool} {r : Option Int32}

theorem Sched.freeSlot_unused (h : s.freeSlot = some np) : (s.proc np).state = .unused := by
  simpa using List.find?_some h

theorem fork_full (h : s.freeSlot = none) : fork p kalloc copyuvm s = (.ok none, s) := by
  rw [Sched.freeSlot] at h
  simp [fork, allocproc, h]

/-- `allocproc` concerns the slot it takes. -/
theorem allocproc_account (kalloc : Bool) (h : s.freeSlot = some np) : ∃ t,
    allocproc kalloc s = (.ok (if kalloc then some np else none), t) ∧
      (∀ x, x ≠ np → t.proc x = s.proc x) ∧ (t.proc np).childSamePri = (s.proc np).childSamePri ∧
      (kalloc = false → (t.proc np).state = .unused) := by
  rw [Sched.freeSlot] at h
  cases kalloc with
  | true =>
    refine ⟨_, by simp [allocproc, h]; rfl, fun x hx => ?_, ?_, by simp⟩
    · simp [Sched.setProc_proc, hx]
    · simp
  | false =>
    refine ⟨_, by simp [allocproc, h]; rfl, fun x hx => ?_, ?_, fun _ => ?_⟩
    · simp [Sched.setProc_proc, hx]
    · simp
    · simp

/-- A `fork` that fails after it has taken a slot gives the slot back. -/
theorem fork_fails (h : s.freeSlot = some np) (hm : (kalloc && copyuvm) = false)
    (hs : fork p kalloc copyuvm s = (.ok r, s')) :
    (s'.account np).state = .unused ∧ ∀ x, x ≠ np → s'.account x = s.account x := by
  obtain ⟨t, ht, hother, -, hunused⟩ := allocproc_account kalloc h
  rw [fork, bind_of_ok ht] at hs
  cases kalloc with
  | false =>
    obtain rfl : t = s' := (Prod.mk.inj hs).2
    exact ⟨hunused rfl, fun x hx => by rw [Sched.account, hother x hx]; rfl⟩
  | true =>
    obtain rfl : copyuvm = false := hm
    simp only [if_true, Bool.false_eq_true, if_false, bind_update] at hs
    obtain rfl := (Prod.mk.inj hs).2
    refine ⟨by rw [account_setProc_self]; rfl, fun x hx => ?_⟩
    rw [account_setProc_ne _ hx, Sched.account, hother x hx]
    rfl

theorem fork_succeeds (h : s.freeSlot = some np) (hp : p ≠ np)
    (hs : fork p true true s = (.ok r, s')) : Forks s p np s' := by
  obtain ⟨t, ht, hother, hsame, -⟩ := allocproc_account true h
  rw [fork, bind_of_ok ht] at hs
  simp only [if_true, bind_gets, bind_update] at hs
  obtain ⟨_, u, hu, hs⟩ := bind_eq_ok hs
  obtain rfl : u = s' := (Prod.mk.inj hs).2
  have hquiet := congrFun (insertProcIntoQueue_tame.keeps _ _ u hu)
  have hproc := hother p hp
  refine ⟨fun x hx hxp => ?_, ?_, ?_⟩ <;> rw [hquiet]
  · rw [account_setProc_ne _ hx, account_setProc_ne _ hx, account_setProc_ne _ hxp,
      account_setProc_ne _ hx, Sched.account, hother x hx]
    rfl
  · rw [account_setProc_ne _ hp, account_setProc_ne _ hp, account_setProc_self]
    simp [Sched.setProc_proc, hp, hproc, Sched.account, Task.account]
  · rw [account_setProc_self]
    simp [Sched.setProc_proc, Ne.symm hp, hproc, hsame, Sched.account, Task.account]

end

/-! ## The machine with ticks -/

/-- A call of the scheduler, a store to `child_pri` by the process on a CPU, or a timer
tick on a CPU. -/
inductive TimedCall where
  | call (call : Call)
  | setChildPri (c : CpuId) (same : Bool)
  | tick (c : CpuId)
deriving DecidableEq, Repr

/-- The code an event runs.  A tick is what `trap` counts; the preemption that may follow is
an event of its own. -/
def TimedCall.exec : TimedCall → SchedM Unit
  | .call x => x.exec
  | .setChildPri c same => do
    let p ← myproc c
    update fun s => s.setProc p fun x => { x with childSamePri := same }
  | .tick c => do
    let p ← myproc c
    update fun s => s.setProc p fun x => { x with pCpuUsage := x.pCpuUsage + 1 }

/-- A step: the code of the event returns. -/
def TimedStep (s : Sched) (e : TimedCall) (s' : Sched) : Prop := e.exec s = (.ok (), s')

section

variable {s s' : Sched} {p : PId} {e : TimedCall}

theorem Disturbed.setProc (h : Disturbed s) {f : Task → Task} (hst : ∀ t, (f t).state = t.state)
    (hc : ∀ t, (f t).curr = t.curr) (hq : ∀ t, (f t).inQueue = t.inQueue)
    (hk : ∀ t, (f t).currCpu = t.currCpu) (hs : ∀ t, (f t).pSig = t.pSig) :
    Disturbed (s.setProc p fun x => { x with toTask := f x.toTask }) := by
  obtain ⟨a, h, hi⟩ := h
  exact ⟨_, h.setTask p f, hi.setTask (hst _) (hc _) (hq _) (hk _) (hs _)⟩

theorem TimedStep.disturbed (h : Disturbed s) (hs : TimedStep s e s') : Disturbed s' := by
  cases e with
  | call x => exact CallStep.disturbed hs h
  | setChildPri c same =>
    obtain ⟨p, -, hs⟩ := of_myproc_ok hs
    obtain rfl := (Prod.mk.inj hs).2
    exact h.setProc (f := fun t => { t with childSamePri := same }) (fun _ => rfl) (fun _ => rfl)
      (fun _ => rfl) (fun _ => rfl) fun _ => rfl
  | tick c =>
    obtain ⟨p, -, hs⟩ := of_myproc_ok hs
    obtain rfl := (Prod.mk.inj hs).2
    exact h.setProc (f := fun t => { t with pCpuUsage := t.pCpuUsage + 1 }) (fun _ => rfl)
      (fun _ => rfl) (fun _ => rfl) (fun _ => rfl) fun _ => rfl

/-- The process that executes is in use. -/
theorem Disturbed.running {c : CpuId} (h : Disturbed s) (hp : s.runningOn c = some p) :
    (s.account p).state = .running := by
  obtain ⟨a, h, hi⟩ := h
  rw [Sched.account, h.task_eq]
  exact (hi.running_iff p).mpr ⟨c, h.env_eq ▸ hp⟩

/-- Only a `fork` takes a slot into use. -/
theorem Disturbed.used {act : Act} (h : Disturbed s) (hs : Step s act s')
    (hf : ∀ c k u, act ≠ .fork c k u) (hp : (s'.account p).state ≠ .unused) :
    (s.account p).state ≠ .unused := by
  obtain ⟨a, h, hi⟩ := h
  obtain ⟨a', h', -, hid⟩ := hs.spec h hi
  rw [Sched.account, h'.task_eq] at hp
  rw [Sched.account, h.task_eq]
  cases act with
  | fork c k u => exact absurd rfl (hf c k u)
  | wait c =>
    obtain ⟨_, -, hid⟩ := hid
    split at hid
    · exact (hid.same p).unused_iff.not.mp hp
    · next x _ =>
      by_cases hx : p = x
      · exact absurd (hx ▸ hid.unused) hp
      · exact (hid.same p hx).unused_iff.not.mp hp
  | exit c =>
    obtain ⟨q, hq, hid⟩ := hid
    by_cases hx : p = q
    · have hr := (hi.running_iff q).mpr ⟨c, hq⟩
      rw [hx, Task.account, hr]
      exact ProcState.noConfusion
    · exact (hid.same p hx).unused_iff.not.mp hp
  | _ => exact (Abs.SameIds.same hid p).unused_iff.not.mp hp

/-! ## Priorities -/

/-- The priority of a process in use is in range. -/
def Account.InRange (x : Account) : Prop :=
  x.state ≠ .unused → LOW_USER_PRIORITY ≤ x.pPri ∧ x.pPri ≤ TOP_PRIORITY

/-- The priorities of all processes in use are in range. -/
def PrisInRange (s : Sched) : Prop := ∀ p, (s.account p).InRange

/-- The processes of `sleepqueue` that wakeups on these channels reach, one after the other: each
takes the first that is on its channel. -/
def reached (chan : PId → Chan) : List PId → List Chan → List PId
  | _, [] => []
  | l, c :: cs =>
    match l.find? fun p => chan p = c with
    | none => reached chan l cs
    | some p => p :: reached chan (l.erase p) cs

/-- Those in a state. -/
def Sched.reaches (s : Sched) (cs : List Chan) : List PId :=
  reached (fun p => (s.proc p).chan) (s.links .sleep) cs

/-- The channels of the wakeups for children of `p` that are passed to `init`. -/
def Sched.childChans (s : Sched) (p : PId) (l : List PId) : List Chan :=
  (l.filter fun x => (s.proc x).parent = some p).map fun _ => .ofProc s.initproc

/-- The channels of the wakeups in `exit`. -/
def Sched.exitChans (s : Sched) (p : PId) : List Chan :=
  .ofProc (s.proc p).parent :: s.childChans p (List.finRange NPROC)

/-- A wakeup, or the end of a process, reaches no process at the top, and a process at the
bottom that has `CHILD_DIFF_PRI` does not fork. -/
def KeepsPris (s : Sched) : TimedCall → Prop
  | .call (.act (.fork c kalloc copyuvm)) => ∀ p, s.runningOn c = some p → s.freeSlot ≠ none →
      (kalloc && copyuvm) = true → (s.account p).childSamePri = false →
        (s.account p).pPri ≠ LOW_USER_PRIORITY
  | .call (.act (.wakeup chan)) => ∀ p ∈ s.reaches [chan], (s.account p).pPri ≠ TOP_PRIORITY
  | .call (.act (.exit c)) => ∀ p, s.runningOn c = some p →
      ∀ x ∈ s.reaches (s.exitChans p), (s.account x).pPri ≠ TOP_PRIORITY
  | _ => True

theorem pri_succ {x : Int8} (hl : LOW_USER_PRIORITY ≤ x) (hu : x ≤ TOP_PRIORITY) :
    (LOW_USER_PRIORITY ≤ x + 1 ∧ x + 1 ≤ TOP_PRIORITY) ↔ x ≠ TOP_PRIORITY := by
  rw [Int8.le_iff_toInt_le] at hl hu
  have hlow : LOW_USER_PRIORITY.toInt = 1 := rfl
  have htop : TOP_PRIORITY.toInt = 10 := rfl
  have hsucc : (x + 1).toInt = x.toInt + 1 := by
    rw [Int8.toInt_add, Int.bmod_eq_of_le] <;> simp <;> omega
  rw [Int8.le_iff_toInt_le, Int8.le_iff_toInt_le, ne_eq, ← Int8.toInt_inj, hsucc]
  omega

theorem pri_pred {x : Int8} (hl : LOW_USER_PRIORITY ≤ x) (hu : x ≤ TOP_PRIORITY) :
    (LOW_USER_PRIORITY ≤ x - 1 ∧ x - 1 ≤ TOP_PRIORITY) ↔ x ≠ LOW_USER_PRIORITY := by
  rw [Int8.le_iff_toInt_le] at hl hu
  have hlow : LOW_USER_PRIORITY.toInt = 1 := rfl
  have htop : TOP_PRIORITY.toInt = 10 := rfl
  have hpred : (x - 1).toInt = x.toInt - 1 := by
    rw [Int8.toInt_sub, Int.bmod_eq_of_le] <;> simp <;> omega
  rw [Int8.le_iff_toInt_le, Int8.le_iff_toInt_le, ne_eq, ← Int8.toInt_inj, hpred]
  omega

/-- The child's priority is in range unless the parent is at the bottom and gives it a lower
one. -/
theorem childPri_inRange {t : Task} (hl : LOW_USER_PRIORITY ≤ t.pPri) (hu : t.pPri ≤ TOP_PRIORITY) :
    (LOW_USER_PRIORITY ≤ childPri t ∧ childPri t ≤ TOP_PRIORITY) ↔
      (t.childSamePri = false → t.pPri ≠ LOW_USER_PRIORITY) := by
  have hzero : t.pPri ≠ 0 := by
    intro e
    rw [e] at hl
    exact absurd hl (by decide)
  cases hsame : t.childSamePri with
  | true => simp [childPri, hsame, hl, hu]
  | false =>
    simp only [childPri, hsame, hzero, if_false, Bool.false_eq_true, pri_pred hl hu, forall_const]

/-- A step that lowers priorities at most. -/
theorem PrisInRange.steady (h : PrisInRange s) (hs : Steady s s')
    (hused : ∀ p, (s'.account p).state ≠ .unused → (s.account p).state ≠ .unused) :
    PrisInRange s' := by
  intro p hp
  rcases (hs p).1 with e | e
  · rw [e]; exact h p (hused p hp)
  · rw [e]; decide

/-- A process that may have been woken. -/
theorem Account.Wakes.inRange_iff {x x' : Account} (h : x.Wakes x') (hx : x.InRange) :
    x'.InRange ↔ (x.state = .sleeping → x'.state = .runnable → x.pPri ≠ TOP_PRIORITY) := by
  rcases h with rfl | ⟨hst, rfl⟩
  · exact iff_of_true hx fun hst hst' => by rw [hst] at hst'; cases hst'
  · have hrange := hx (by rw [hst]; exact ProcState.noConfusion)
    simp only [Account.InRange, hst, forall_const, pri_succ hrange.1 hrange.2]
    simp

/-- The processes that have been woken on the way from `s` to `s'` are those of `l`. -/
def Rouses (s : Sched) (l : List PId) (s' : Sched) : Prop := ∀ p,
  (s.account p).state = .sleeping ∧ (s'.account p).state = .runnable ↔ p ∈ l

theorem Rouses.trans {t : Sched} {l l' : List PId} (h : Rouses s l t) (h' : Rouses t l' s')
    (hw : Wakes s t) (hw' : Wakes t s') : Rouses s (l ++ l') s' := by
  intro p
  rw [List.mem_append, ← h, ← h']
  rcases hw p with e | ⟨hst, e⟩ <;> rcases hw' p with e' | ⟨hst', e'⟩ <;> simp_all

theorem wakeup1_rouses {a : Abs} {hit : Prop} {chan : Chan} (h : Sim s a) (hi : Inv hit a)
    (hs : wakeup1 chan s = (.ok (), s')) :
    ∃ l, (∀ cs, s.reaches (chan :: cs) = l ++ s'.reaches cs) ∧ Rouses s l s' := by
  have hw := wakeup1_refines h hi chan
  have hlinks := (h.wf .sleep).links_eq
  have hchan : ∀ x, (s.proc x).chan = (a.task x).chan := fun x => by rw [← h.task_eq x]
  split at hw
  next hnone =>
    rw [hw] at hs
    cases hs
    refine ⟨[], fun cs => ?_, fun p => ?_⟩
    · simp only [Sched.reaches, reached, hlinks, hchan, hnone, List.nil_append]
    · simp only [List.not_mem_nil, iff_false, not_and]
      intro hst hst'
      rw [hst] at hst'
      cases hst'
  next p hsome =>
    split at hw
    next hst =>
      obtain ⟨s1, h1, heq⟩ := hw
      rw [heq] at hs
      obtain rfl : s1 = s' := (Prod.mk.inj hs).2
      have htask := fun x => (h1.task_eq x).trans (Abs.wake_task hi hst)
      have hchan1 : ∀ x, (s1.proc x).chan = (a.task x).chan := fun x => by
        rw [htask]
        split
        next e => rw [e]
        next => rfl
      refine ⟨[p], fun cs => ?_, fun x => ?_⟩
      · simp only [Sched.reaches, reached, hlinks, hchan, hchan1, hsome, (h1.wf .sleep).links_eq,
          Abs.wake_list_sleep, List.singleton_append]
      · rw [List.mem_singleton, Sched.account, Sched.account, htask, h.task_eq]
        by_cases hx : x = p
        · simp [hx, hst, Task.account]
        · simp only [hx, if_false, iff_false, not_and]
          intro hst hst'
          rw [hst] at hst'
          cases hst'
    next =>
      rw [hw] at hs
      cases hs

theorem Sched.childChans_congr {l : List PId} (hinit : s'.initproc = s.initproc)
    (hpar : ∀ x ∈ l, (s'.proc x).parent = (s.proc x).parent) :
    s'.childChans p l = s.childChans p l := by
  rw [childChans, childChans, hinit, List.filter_congr fun x hx => by rw [hpar x hx]]

/-- A child that gets another parent is no closer to being woken. -/
theorem Sched.reaches_setParent (s : Sched) (x : PId) (o : Option PId) (cs : List Chan) :
    (s.setProc x fun t => { t with parent := o }).reaches cs = s.reaches cs := by
  have hproc : ∀ y, ((s.setProc x fun t => { t with parent := o }).proc y).chan = (s.proc y).chan ∧
      ((s.setProc x fun t => { t with parent := o }).proc y).next = (s.proc y).next := by
    intro y
    rw [setProc_proc]
    split
    next e => exact e ▸ ⟨rfl, rfl⟩
    next => exact ⟨rfl, rfl⟩
  simp only [reaches, links, fun y => (hproc y).1, fun y => (hproc y).2]
  rfl

/-- The loop of `exit`. -/
theorem reparent_rouses {a : Abs} {hit : Prop} {l : List PId} (h : Sim s a) (hi : Inv hit a)
    (hl : l.Nodup) (hinit : s.initproc ≠ some p) (hs : l.forM (reparent p) s = (.ok (), s')) :
    Rouses s (s.reaches (s.childChans p l)) s' := by
  induction l generalizing s a with
  | nil =>
    cases hs
    refine fun x => iff_of_false (fun hx => ?_) List.not_mem_nil
    rw [hx.1] at hx
    cases hx.2
  | cons x l ih =>
    obtain ⟨_, s1, hx, hrest⟩ := bind_eq_ok hs
    rw [List.nodup_cons] at hl
    have hw := reparent_tame.keeps s () s1 hx
    have hw' := (Keeps.forM fun _ => reparent_tame.keeps) s1 () s' hrest
    by_cases hpar : (s.proc x).parent = some p
    · simp only [reparent, bind_gets, hpar, if_true, bind_update] at hx
      have hset := h.setTask x fun t => { t with parent := s.initproc }
      have hiset := hi.setTask (p := x) (f := fun t =>
        { t with parent := s.initproc }) rfl rfl rfl rfl rfl
      obtain ⟨a1, h1, hi1, henv, hids⟩ := wakeup1_inv hset hiset hx
      obtain ⟨l1, hreach, hrouse⟩ := wakeup1_rouses hset hiset hx
      have hinit1 : s1.initproc = s.initproc := by
        rw [h1.env_eq, henv, h.env_eq]
        rfl
      have hchans : s1.childChans p l = s.childChans p l := by
        refine Sched.childChans_congr hinit1 fun y hy => ?_
        have hne : y ≠ x := fun e => hl.1 (e ▸ hy)
        have hpar1 := hids.parent_eq y
        rwa [← h1.task_eq, Abs.setTask_task, if_neg hne, ← h.task_eq] at hpar1
      have hcons : s.reaches (s.childChans p (x :: l)) = l1 ++ s1.reaches (s.childChans p l) := by
        rw [← hreach, Sched.reaches_setParent]
        simp only [Sched.childChans, List.filter_cons, hpar, decide_true, if_true, List.map_cons]
      rw [hcons, ← hchans]
      refine Rouses.trans (fun y => ?_) (ih h1 hi1 hl.2 (by rwa [hinit1]) hrest) hw hw'
      rw [← hrouse, Quiet.setProc (by intro; rfl) s]
    · simp only [reparent, bind_gets, hpar, if_false] at hx
      obtain rfl : s = s1 := (Prod.mk.inj hx).2
      have hchans : s.childChans p (x :: l) = s.childChans p l := by
        simp [Sched.childChans, hpar]
      rw [hchans]
      exact ih h hi hl.2 hinit hrest

theorem exit_rouses {a : Abs} {hit : Prop} {c : CpuId} (h : Sim s a) (hi : Inv hit a)
    (hs : exit c p s = (.ok (), s')) :
    ∃ t, Wakes s t ∧ Rouses s (s.reaches (s.exitChans p)) t ∧ Own p t s' := by
  by_cases hinit : s.initproc = some p
  · simp [exit, hinit] at hs
  simp only [exit, bind_gets, hinit, if_false] at hs
  obtain ⟨_, s1, hw, hs⟩ := bind_eq_ok hs
  obtain ⟨_, s2, hr, hs⟩ := bind_eq_ok hs
  obtain ⟨a1, h1, hi1, henv, hids⟩ := wakeup1_inv h hi hw
  obtain ⟨l, hreach, hrouse⟩ := wakeup1_rouses h hi hw
  have hinit1 : s1.initproc = s.initproc := by
    rw [h1.env_eq, henv, ← h.env_eq]
  have hchans : s1.childChans p (List.finRange NPROC) = s.childChans p (List.finRange NPROC) := by
    refine Sched.childChans_congr hinit1 fun x _ => ?_
    have hpar := hids.parent_eq x
    rwa [← h1.task_eq, ← h.task_eq] at hpar
  have hw1 := wakeup1_tame.keeps s () s1 hw
  have hw2 := (Keeps.forM fun _ => reparent_tame.keeps) s1 () s2 hr
  refine ⟨s2, IsTrans.trans s s1 s2 hw1 hw2, ?_, exit_rest_keeps s2 () s' hs⟩
  rw [Sched.exitChans, hreach, ← hchans]
  exact hrouse.trans (reparent_rouses h1 hi1 (List.nodup_finRange _) (by rwa [hinit1]) hr) hw1 hw2

theorem Wakes.prisInRange_iff {l : List PId} (h : Wakes s s') (hr : Rouses s l s')
    (hs : PrisInRange s) : PrisInRange s' ↔ ∀ p ∈ l, (s.account p).pPri ≠ TOP_PRIORITY :=
  forall_congr' fun p => by rw [(h p).inRange_iff (hs p), ← hr p, and_imp]

/-- A process wakes others and then gives up its CPU. -/
theorem Wakes.own_prisInRange_iff {t : Sched} {l : List PId} (h : Wakes s t) (hr : Rouses s l t)
    (hown : Own p t s') (hs : PrisInRange s) (hp : (s.account p).state = .running) :
    PrisInRange s' ↔ ∀ x ∈ l, (s.account x).pPri ≠ TOP_PRIORITY := by
  have hself : t.account p = s.account p := (h p).resolve_right
    fun hw => by rw [hp] at hw; cases hw.1
  have hrange := hs p (by rw [hp]; exact ProcState.noConfusion)
  refine forall_congr' fun x => ?_
  rw [← hr x, and_imp]
  by_cases hx : x = p
  · subst hx
    refine iff_of_true (fun _ => ?_) fun hst => by rw [hp] at hst; cases hst
    rcases hown.2.1 with e | e
    · rw [e, hself]; exact hrange
    · rw [e]; decide
  · rw [hown.1 x hx]
    exact (h x).inRange_iff (hs x)

theorem fork_prisInRange_iff {c : CpuId} {kalloc copyuvm : Bool} (h : Disturbed s)
    (hs : PrisInRange s) (hstep : Step s (.fork c kalloc copyuvm) s') :
    PrisInRange s' ↔ KeepsPris s (.call (.act (.fork c kalloc copyuvm))) := by
  obtain ⟨p, hp, hstep⟩ := of_myproc_ok hstep
  obtain ⟨r, t, hfork, ht⟩ := bind_eq_ok hstep
  obtain rfl : t = s' := (Prod.mk.inj ht).2
  have hrun := h.running hp
  simp only [KeepsPris, hp, Option.some.injEq, forall_eq']
  rcases hslot : s.freeSlot with _ | np
  · rw [fork_full hslot] at hfork
    obtain rfl : s = t := (Prod.mk.inj hfork).2
    simpa using hs
  have hunused := Sched.freeSlot_unused hslot
  have hne : p ≠ np := by
    rintro rfl
    exact ProcState.noConfusion (hrun.symm.trans hunused)
  by_cases hm : (kalloc && copyuvm) = true
  · obtain ⟨rfl, rfl⟩ : kalloc = true ∧ copyuvm = true := by simpa using hm
    have hforks := fork_succeeds hslot hne hfork
    have hrange := hs p (by rw [hrun]; exact ProcState.noConfusion)
    have hchild : (t.account np).InRange ↔
        ((s.account p).childSamePri = false → (s.account p).pPri ≠ LOW_USER_PRIORITY) := by
      have hpri := childPri_inRange (t := (s.proc p).toTask) hrange.1 hrange.2
      rw [hforks.child]
      exact ⟨fun hr => hpri.mp (hr ProcState.noConfusion), fun hc _ => hpri.mpr hc⟩
    simp only [ne_eq, reduceCtorEq, not_false_eq_true, forall_const, Bool.and_self]
    refine Iff.trans ⟨fun hall => hall np, fun hnp x => ?_⟩ hchild
    by_cases hx : x = np
    · exact hx ▸ hnp
    by_cases hxp : x = p
    · subst hxp
      rw [hforks.parent]
      exact hs x
    · rw [hforks.other x hx hxp]; exact hs x
  · have hfails := fork_fails hslot (by simpa using hm) hfork
    refine iff_of_true (fun x => ?_) fun _ hm' => absurd hm' hm
    by_cases hx : x = np
    · exact fun hu => absurd (hx ▸ hfails.1) hu
    · rw [hfails.2 x hx]; exact hs x

/-- A store to one process. -/
theorem PrisInRange.setProc (hs : PrisInRange s) {f : Proc → Proc}
    (hf : (s.account p).InRange → (f (s.proc p)).toTask.account.InRange) :
    PrisInRange (s.setProc p f) := by
  intro x
  by_cases hx : x = p
  · subst hx
    rw [account_setProc_self]
    exact hf (hs x)
  · rw [account_setProc_ne s hx]; exact hs x

theorem kill_prisInRange {pid r : Int32} (hs : PrisInRange s) (hstep : kill pid s = (.ok r, s')) :
    PrisInRange s' := by
  rw [kill_eq] at hstep
  split at hstep
  · cases hstep; exact hs
  · next p _ =>
    cases hstep
    refine hs.setProc fun hp hu => hp ?_
    by_cases hst : (s.proc p).state = .sleeping <;> simp_all
      [Task.account, Task.kill, Sched.account]

theorem sig_prisInRange {sigmask : BitVec 32} {pid r : Int32} (hs : PrisInRange s)
    (hstep : sig sigmask pid s = (.ok r, s')) : PrisInRange s' := by
  rw [sig_eq] at hstep
  split at hstep
  · split at hstep
    · cases hstep; exact hs
    · cases hstep
      exact hs.setProc fun _ _ => by simp only [Task.account, Task.sig]; decide
  · cases hstep; exact hs

/-- One event keeps the priorities in range exactly if it meets the condition. -/
theorem TimedStep.prisInRange_iff (h : Disturbed s) (hs : PrisInRange s)
    (hstep : TimedStep s e s') : PrisInRange s' ↔ KeepsPris s e := by
  cases e with
  | setChildPri c same =>
    obtain ⟨p, -, hstep⟩ := of_myproc_ok hstep
    obtain rfl := (Prod.mk.inj hstep).2
    exact iff_of_true (hs.setProc fun hp => hp) trivial
  | tick c =>
    obtain ⟨p, -, hstep⟩ := of_myproc_ok hstep
    obtain rfl := (Prod.mk.inj hstep).2
    exact iff_of_true (hs.setProc fun hp => hp) trivial
  | call x => cases x with
    | kill c pid =>
      obtain ⟨r, t, hkill, ht⟩ := bind_eq_ok (of_myproc_then hstep)
      obtain rfl : t = s' := (Prod.mk.inj ht).2
      exact iff_of_true (kill_prisInRange hs hkill) trivial
    | sig c mask pid =>
      obtain ⟨r, t, hsig, ht⟩ := bind_eq_ok (of_myproc_then hstep)
      obtain rfl : t = s' := (Prod.mk.inj ht).2
      exact iff_of_true (sig_prisInRange hs hsig) trivial
    | act act =>
      have hact : Step s act s' := hstep
      cases act with
      | fork c kalloc copyuvm => exact fork_prisInRange_iff h hs hact
      | wakeup chan =>
        obtain ⟨a, hsim, hi⟩ := h
        obtain ⟨l, hreach, hrouse⟩ := wakeup1_rouses hsim hi hact
        have hl : s.reaches [chan] = l := (hreach []).trans (List.append_nil l)
        rw [KeepsPris, hl]
        exact (wakeup1_tame.keeps s () s' hact).prisInRange_iff hrouse hs
      | exit c =>
        obtain ⟨p, hp, hexit⟩ := of_myproc_ok hact
        have hrun := h.running hp
        obtain ⟨a, hsim, hi⟩ := h
        obtain ⟨t, hw, hrouse, hown⟩ := exit_rouses hsim hi hexit
        simp only [KeepsPris, hp, Option.some.injEq, forall_eq']
        exact hw.own_prisInRange_iff hrouse hown hs hrun
      | _ =>
        exact iff_of_true (hs.steady (hact.steady (by rintro _ _ _ ⟨⟩) (by rintro _ ⟨⟩)
          (by rintro _ ⟨⟩)) fun p => h.used hact (by rintro _ _ _ ⟨⟩)) trivial

/-! ## Time quanta -/

/-- The time quanta of all processes in use are non-negative. -/
def QuantaNonneg (s : Sched) : Prop := ∀ p, (s.account p).state ≠ .unused →
    0 ≤ (s.account p).pTimeQuantum

/-- A `fork` divides the time quantum of the parent between the two processes. -/
def SplitsQuantum (s : Sched) : TimedCall → Prop
  | .call (.act (.fork c kalloc copyuvm)) => ∀ s', Step s (.fork c kalloc copyuvm) s' →
      ∀ p, s.runningOn c = some p → ∀ np, (s.account np).state = .unused →
      (s'.account np).state ≠ .unused →
        0 ≤ (s'.account p).pTimeQuantum ∧ 0 ≤ (s'.account np).pTimeQuantum ∧
        (s'.account p).pTimeQuantum.toInt + (s'.account np).pTimeQuantum.toInt =
          (s.account p).pTimeQuantum.toInt
  | _ => True

/-- Half of the ticks counted for a process that forks is no more than its time quantum. -/
def KeepsQuanta (s : Sched) : TimedCall → Prop
  | .call (.act (.fork c kalloc copyuvm)) => ∀ p, s.runningOn c = some p → s.freeSlot ≠ none →
      (kalloc && copyuvm) = true →
        0 ≤ (s.account p).pCpuUsage / 2 ∧ (s.account p).pCpuUsage / 2 ≤ (s.account p).pTimeQuantum
  | _ => True

/-- An event other than a `fork` takes no slot into use and changes no quantum. -/
def Plain (s s' : Sched) : Prop :=
  ∀ p, ((s'.account p).state ≠ .unused → (s.account p).state ≠ .unused) ∧
    (s'.account p).pTimeQuantum = (s.account p).pTimeQuantum

theorem QuantaNonneg.plain (h : QuantaNonneg s) (hs : Plain s s') : QuantaNonneg s' := by
  intro p hp
  rw [(hs p).2]
  exact h p ((hs p).1 hp)

theorem Plain.refl (s : Sched) : Plain s s := fun _ => ⟨id, rfl⟩

theorem Plain.setProc {f : Proc → Proc}
    (hf : (f (s.proc p)).state ≠ .unused → (s.proc p).state ≠ .unused)
    (hq : (f (s.proc p)).pTimeQuantum = (s.proc p).pTimeQuantum) : Plain s (s.setProc p f) := by
  intro x
  by_cases hx : x = p
  · subst hx
    rw [account_setProc_self]
    exact ⟨hf, hq⟩
  · rw [account_setProc_ne s hx]; exact ⟨id, rfl⟩

theorem Account.Wakes.quantum_eq {x x' : Account} (h : x.Wakes x') :
    x'.pTimeQuantum = x.pTimeQuantum := by
  rcases h with rfl | ⟨-, rfl⟩ <;> rfl

/-- What a step of the scheduler other than a `fork` does to the time quanta. -/
theorem Step.quantum_eq {act : Act} (hs : Step s act s') (hf : ∀ c k u, act ≠ .fork c k u)
    (p : PId) : (s'.account p).pTimeQuantum = (s.account p).pTimeQuantum := by
  cases act with
  | fork c k u => exact absurd rfl (hf c k u)
  | wakeup chan => exact (wakeup1_tame.keeps s () s' hs p).quantum_eq
  | exit c =>
    obtain ⟨q, -, hexit⟩ := of_myproc_ok hs
    obtain ⟨t, hw, hown⟩ := exit_keeps s () s' hexit
    exact (Own.steady t s' hown p).2.1.trans (hw p).quantum_eq
  | _ => exact (hs.steady (by rintro _ _ _ ⟨⟩) (by rintro _ ⟨⟩) (by rintro _ ⟨⟩) p).2.1

theorem TimedStep.plain (h : Disturbed s) (hs : TimedStep s e s')
    (hf : ∀ c k u, e ≠ .call (.act (.fork c k u))) : Plain s s' := by
  cases e with
  | setChildPri c same =>
    obtain ⟨p, -, hs⟩ := of_myproc_ok hs
    obtain rfl := (Prod.mk.inj hs).2
    exact .setProc id rfl
  | tick c =>
    obtain ⟨p, -, hs⟩ := of_myproc_ok hs
    obtain rfl := (Prod.mk.inj hs).2
    exact .setProc id rfl
  | call x => cases x with
    | kill c pid =>
      obtain ⟨r, t, hkill, ht⟩ := bind_eq_ok (of_myproc_then hs)
      obtain rfl : t = s' := (Prod.mk.inj ht).2
      rw [kill_eq] at hkill
      split at hkill
      · cases hkill; exact .refl s
      · next p _ =>
        cases hkill
        refine .setProc (fun hu => ?_) rfl
        by_cases hst : (s.proc p).state = .sleeping <;> simp_all [Task.kill]
    | sig c mask pid =>
      obtain ⟨r, t, hsig, ht⟩ := bind_eq_ok (of_myproc_then hs)
      obtain rfl : t = s' := (Prod.mk.inj ht).2
      rw [sig_eq] at hsig
      split at hsig
      · split at hsig
        · cases hsig; exact .refl s
        · next p hp =>
          cases hsig
          exact .setProc (fun _ => (Sched.findUsed_used hp).2) rfl
      · cases hsig; exact .refl s
    | act act =>
      have hact : Step s act s' := hs
      have hfork : ∀ c k u, act ≠ .fork c k u := fun c k u e => hf c k u (by rw [e])
      exact fun p => ⟨h.used hact hfork, hact.quantum_eq hfork p⟩

/-- Two non-negative numbers have a difference. -/
theorem toInt_sub_of_nonneg {q u : Int32} (hq : 0 ≤ q) (hu : 0 ≤ u) :
    (q - u).toInt = q.toInt - u.toInt := by
  rw [Int32.le_iff_toInt_le, Int32.toInt_zero] at hq hu
  have hq' := q.toInt_lt
  have hu' := u.toInt_lt
  rw [Int32.toInt_sub, Int.bmod_eq_of_le] <;> omega

/-- Taking `u` from `q` leaves two non-negative parts exactly if `u` is one of them. -/
theorem quantum_split {q u : Int32} (hq : 0 ≤ q) : 0 ≤ q - u ∧ 0 ≤ u ↔ 0 ≤ u ∧ u ≤ q := by
  constructor
  · rintro ⟨hsub, hu⟩
    rw [Int32.le_iff_toInt_le, toInt_sub_of_nonneg hq hu, Int32.toInt_zero] at hsub
    exact ⟨hu, Int32.le_iff_toInt_le.mpr (by omega)⟩
  · rintro ⟨hu, hle⟩
    rw [Int32.le_iff_toInt_le] at hle
    refine ⟨?_, hu⟩
    rw [Int32.le_iff_toInt_le, toInt_sub_of_nonneg hq hu, Int32.toInt_zero]
    omega

theorem fork_quanta_iff {c : CpuId} {kalloc copyuvm : Bool} (h : Disturbed s) (hs : QuantaNonneg s)
    (hstep : Step s (.fork c kalloc copyuvm) s') :
    QuantaNonneg s' ∧ SplitsQuantum s (.call (.act (.fork c kalloc copyuvm))) ↔
      KeepsQuanta s (.call (.act (.fork c kalloc copyuvm))) := by
  have hdet : ∀ t, Step s (.fork c kalloc copyuvm) t → t = s' := fun t ht =>
    (Prod.mk.inj (ht.symm.trans hstep)).2
  obtain ⟨p, hp, hstep⟩ := of_myproc_ok hstep
  obtain ⟨r, t, hfork, ht⟩ := bind_eq_ok hstep
  obtain rfl : t = s' := (Prod.mk.inj ht).2
  have hrun := h.running hp
  have hpq := hs p (by rw [hrun]; exact ProcState.noConfusion)
  simp only [KeepsQuanta, SplitsQuantum, hp, Option.some.injEq, forall_eq']
  rcases hslot : s.freeSlot with _ | np
  · rw [fork_full hslot] at hfork
    obtain rfl : s = t := (Prod.mk.inj hfork).2
    refine iff_of_true ⟨hs, fun u hu np hn hn' => ?_⟩ fun hne => absurd rfl hne
    exact absurd (hdet u hu ▸ hn) hn'
  have hunused := Sched.freeSlot_unused hslot
  have hne : p ≠ np := by
    rintro rfl
    exact ProcState.noConfusion (hrun.symm.trans hunused)
  by_cases hm : (kalloc && copyuvm) = true
  · obtain ⟨rfl, rfl⟩ : kalloc = true ∧ copyuvm = true := by simpa using hm
    have hforks := fork_succeeds hslot hne hfork
    simp only [ne_eq, reduceCtorEq, not_false_eq_true, forall_const, Bool.and_self]
    rw [← quantum_split hpq]
    constructor
    · rintro ⟨hnonneg, -⟩
      have hparent := hnonneg p (by rw [hforks.parent, hrun]; exact ProcState.noConfusion)
      have hchild := hnonneg np (by rw [hforks.child]; exact ProcState.noConfusion)
      rw [hforks.parent] at hparent
      rw [hforks.child] at hchild
      exact ⟨hparent, hchild⟩
    · rintro ⟨hparent, hchild⟩
      refine ⟨fun x hx => ?_, fun u hu np' hn hn' => ?_⟩
      · by_cases hxn : x = np
        · rw [hxn, hforks.child]; exact hchild
        by_cases hxp : x = p
        · rw [hxp, hforks.parent]; exact hparent
        · rw [hforks.other x hxn hxp] at hx ⊢
          exact hs x hx
      · obtain rfl := hdet u hu
        obtain rfl : np' = np := by
          by_contra hxn
          have hxp : np' ≠ p := by
            rintro rfl
            exact ProcState.noConfusion (hrun.symm.trans hn)
          rw [hforks.other np' hxn hxp] at hn'
          exact hn' hn
        rw [hforks.parent, hforks.child]
        refine ⟨hparent, hchild, ?_⟩
        simp only [toInt_sub_of_nonneg hpq hchild]
        omega
  · have hfails := fork_fails hslot (by simpa using hm) hfork
    refine iff_of_true ⟨fun x hx => ?_, fun u hu np' hn hn' => ?_⟩ fun _ hm' => absurd hm' hm
    · have hxn : x ≠ np := fun e => hx (e ▸ hfails.1)
      rw [hfails.2 x hxn] at hx ⊢
      exact hs x hx
    · rw [hdet u hu] at hn'
      have hxn : np' ≠ np := fun e => hn' (e ▸ hfails.1)
      rw [hfails.2 np' hxn] at hn'
      exact absurd hn hn'

/-- One event keeps the time quanta non-negative, and splits them if it is a `fork`, exactly
if it meets the condition. -/
theorem TimedStep.quanta_iff (h : Disturbed s) (hs : QuantaNonneg s) (hstep : TimedStep s e s') :
    QuantaNonneg s' ∧ SplitsQuantum s e ↔ KeepsQuanta s e := by
  by_cases hf : ∃ c k u, e = .call (.act (.fork c k u))
  · obtain ⟨c, k, u, rfl⟩ := hf
    exact fork_quanta_iff h hs hstep
  · push Not at hf
    have hplain := hs.plain (hstep.plain h hf)
    cases e with
    | setChildPri c same => exact iff_of_true ⟨hplain, trivial⟩ trivial
    | tick c => exact iff_of_true ⟨hplain, trivial⟩ trivial
    | call x => cases x with
      | kill c pid => exact iff_of_true ⟨hplain, trivial⟩ trivial
      | sig c mask pid => exact iff_of_true ⟨hplain, trivial⟩ trivial
      | act act => cases act with
        | fork c k u => exact absurd rfl (hf c k u)
        | _ => exact iff_of_true ⟨hplain, trivial⟩ trivial

/-! ## Whole runs -/

theorem initprocqueue_quiet {q : QId} : Keeps Quiet (initprocqueue q) := .update fun _ => rfl

theorem initRunqueues_quiet : Keeps Quiet initRunqueues :=
  .bind .gets fun _ => .ite initprocqueue_quiet (.bind .gets fun _ => .forM fun _ =>
    initprocqueue_quiet)

/-- At start-up one slot is in use, with the default priority and time quantum. -/
theorem Booted.account (h : Booted s) : ∃ np, (s.account np).pPri = MED_USER_PRIORITY ∧
    (s.account np).pTimeQuantum = DEFAULT_USER_TIME_QUANTUM ∧
    ∀ x, x ≠ np → (s.account x).state = .unused := by
  obtain ⟨ncpu, -, -, hs⟩ := h
  obtain ⟨_, s1, h1, hs⟩ := bind_eq_ok hs
  obtain ⟨_, s2, h2, hs⟩ := bind_eq_ok hs
  obtain ⟨_, s3, h3, hs⟩ := bind_eq_ok hs
  have hquiet : s3.account = (Sched.boot ncpu).account :=
    (initprocqueue_quiet _ _ _ h3).trans
      ((initprocqueue_quiet _ _ _ h2).trans (initRunqueues_quiet _ _ _ h1))
  rcases hslot : s3.freeSlot with _ | np
  · have hnone : allocproc true s3 = (.ok none, s3) := by
      rw [Sched.freeSlot] at hslot
      simp [allocproc, hslot]
    rw [bind_of_ok hnone] at hs
    cases hs
  obtain ⟨t, ht, hother, -, -⟩ := allocproc_account true hslot
  rw [bind_of_ok ht] at hs
  simp only [if_true, bind_update] at hs
  have hins := congrFun (insertProcIntoQueue_tame.keeps _ _ s hs)
  refine ⟨np, ?_, ?_, fun x hx => ?_⟩ <;> rw [hins]
  · rw [account_setProc_self]; simp [Task.account]
  · rw [account_setProc_self]; simp [Task.account]
  · have hunused : (s3.account x).state = .unused := by rw [hquiet]; rfl
    rw [account_setProc_ne _ hx, account_setProc_ne _ hx, ← hunused, Sched.account,
      Sched.account, hother x hx]

end

/-- The priorities stay in range in all states of a run exactly if it wakes no process at
the top, and no process at the bottom forks a child of lower priority. -/
theorem prisInRange_always_iff {s : Sched} {l : List (TimedCall × Sched)} (h0 : Booted s)
    (h : Trace TimedStep s l) : Trace.Always PrisInRange s l ↔ Trace.Meets KeepsPris s l := by
  refine h.always_iff_meets Disturbed (fun _ _ _ hd _ _ hs => hs.disturbed hd)
    (fun _ _ _ hd hP hs => hs.prisInRange_iff hd hP) h0.disturbed fun p hp => ?_
  obtain ⟨np, hpri, -, hother⟩ := h0.account
  obtain rfl : p = np := not_not.mp fun hne => hp (hother p hne)
  rw [hpri]
  decide

/-- The state `userinit` leaves on a machine with one CPU. -/
def booted : Sched := (userinit (Sched.boot 1)).2

theorem booted_booted : Booted booted := ⟨1, by decide, by decide, Prod.ext (by decide +kernel) rfl⟩

/-- `init` forks, sleeps and is woken. -/
def forkSleep : List TimedCall :=
  [.call (.act (.schedule 0)), .setChildPri 0 false, .call (.act (.fork 0 true true)),
    .call (.act (.sleep 0 (.addr 1))), .call (.act (.switchBack 0)),
    .call (.act (.wakeup (.addr 1)))]

theorem prisInRange_always_fork :
    Trace.Meets KeepsPris booted (Trace.run TimedCall.exec booted forkSleep) ∧
      Trace.Always PrisInRange booted (Trace.run TimedCall.exec booted forkSleep) := by
  have hkeeps : Trace.Meets KeepsPris booted (Trace.run TimedCall.exec booted forkSleep) := by
    refine ⟨trivial, trivial, ?fork, trivial, trivial, ?wakeup, trivial⟩
    case fork =>
      rw [KeepsPris]
      decide +kernel
    case wakeup =>
      rw [KeepsPris]
      decide +kernel
  refine ⟨hkeeps, (prisInRange_always_iff booted_booted (Trace.of_run ?_)).mpr hkeeps⟩
  decide +kernel

/-- `init` sends itself a signal, sleeps and is woken. -/
def signalSleep : List TimedCall :=
  [.call (.act (.schedule 0)), .call (.sig 0 0 1), .call (.act (.sleep 0 (.addr 1))),
    .call (.act (.switchBack 0)), .call (.act (.wakeup (.addr 1)))]

/-- The signal gives it the top priority, and the wakeup a higher one. -/
theorem not_prisInRange_signalSleep : Booted booted ∧
    Trace TimedStep booted (Trace.run TimedCall.exec booted signalSleep) ∧
    ¬ Trace.Always PrisInRange booted (Trace.run TimedCall.exec booted signalSleep) ∧
    ((Trace.run TimedCall.exec booted signalSleep).map fun x => (x.2.account 0).pPri) =
      [3, 10, 10, 10, 11] := by
  refine ⟨booted_booted, Trace.of_run (by decide +kernel), fun h => ?_, by decide +kernel⟩
  have hlast := h.2 _ (List.getElem_mem (by decide :
    4 < (Trace.run TimedCall.exec booted signalSleep).length)) 0 (by decide +kernel)
  exact absurd hlast.2 (by decide +kernel)

/-- The time quanta stay non-negative in all states of a run, and every `fork` of it splits
the parent's quantum, exactly if every process that forks has a quantum of at least half
its ticks. -/
theorem quanta_always_iff {s : Sched} {l : List (TimedCall × Sched)} (h0 : Booted s)
    (h : Trace TimedStep s l) :
    Trace.Always QuantaNonneg s l ∧ Trace.Meets SplitsQuantum s l ↔
      Trace.Meets KeepsQuanta s l := by
  refine h.always_and_meets_iff Disturbed (fun _ _ _ hd _ _ hs => hs.disturbed hd)
    (fun _ _ _ hd hP hs => hs.quanta_iff hd hP) h0.disturbed fun p hp => ?_
  obtain ⟨np, -, hq, hother⟩ := h0.account
  obtain rfl : p = np := not_not.mp fun hne => hp (hother p hne)
  rw [hq]
  decide

/-- `init` forks after two ticks. -/
def twoTicks : List TimedCall :=
  [.call (.act (.schedule 0)), .tick 0, .tick 0, .call (.act (.fork 0 true true))]

theorem quanta_always_fork :
    Trace.Meets KeepsQuanta booted (Trace.run TimedCall.exec booted twoTicks) ∧
      Trace.Always QuantaNonneg booted (Trace.run TimedCall.exec booted twoTicks) ∧
      Trace.Meets SplitsQuantum booted (Trace.run TimedCall.exec booted twoTicks) := by
  have hkeeps : Trace.Meets KeepsQuanta booted (Trace.run TimedCall.exec booted twoTicks) := by
    refine ⟨trivial, trivial, trivial, ?fork, trivial⟩
    rw [KeepsQuanta]
    decide +kernel
  refine ⟨hkeeps, (quanta_always_iff booted_booted (Trace.of_run ?_)).mpr hkeeps⟩
  decide +kernel

/-- `init` runs for 32 ticks and forks three times. -/
def tickFork : List TimedCall :=
  .call (.act (.schedule 0)) :: List.replicate 32 (.tick 0) ++ List.replicate 3
    (.call (.act (.fork 0 true true)))

/-- Each `fork` takes 16 from a quantum of 45. -/
theorem not_quanta_tickFork : Booted booted ∧
    Trace TimedStep booted (Trace.run TimedCall.exec booted tickFork) ∧
    ¬ Trace.Always QuantaNonneg booted (Trace.run TimedCall.exec booted tickFork) ∧
    (((Trace.run TimedCall.exec booted tickFork).drop 32).map fun x =>
      (x.2.account 0).pTimeQuantum) = [45, 29, 13, -3] := by
  refine ⟨booted_booted, Trace.of_run (by decide +kernel), fun h => ?_, by decide +kernel⟩
  have hlast := h.2 _ (List.getElem_mem (by decide :
    35 < (Trace.run TimedCall.exec booted tickFork).length)) 0 (by decide +kernel)
  exact absurd hlast (by decide +kernel)

end Xv6Rework
