import Xv6Rework.Data.QueueSpec
import Xv6Rework.Sched.Proc

/-!
# The invariant of the scheduler

`Inv hit` is the invariant of the abstract scheduler: which processes each queue
lists, and which fields of a listed process can be relied on.  `kill` and `sig`
change the state of a process behind the scheduler's back; `hit` says whether
they may have been called, and `Inv False` is the invariant of the scheduler left
to itself.  `Sim s a` is
`Rep s a` together with the one fact about pointers that the lists do not
determine and the scheduler depends on: the `tail` of a run queue is null,
because a run queue never holds two processes.

This file gives, for each function of `Sched/Proc.lean` that moves processes
between queues, the abstract state it leads to.
-/

namespace Xv6Rework

open Prog

variable {s : Sched} {a : Abs} {q : QId} {c : CpuId} {p : PId} {hit : Prop}

/-! ## Simulation -/

/-- `s` represents `a`, and no run queue of `s` has a tail. -/
structure Sim (s : Sched) (a : Abs) : Prop extends Rep s a where
  runTail : ∀ c, (s.queue (.run c)).tail = none

/-- The only run queues one inserts into are empty. -/
theorem Sim.insert (h : Sim s a) (hn : a.Unlinked p) (hst : (a.task p).state ≠ .running)
    (hc : (a.task p).curr ≠ some q) (hq : ∀ c, q = .run c → a.list q = []) :
    ∃ s', insertProcIntoQueue p (some q) s = (.ok (), s') ∧ Sim s' (a.insert p q) := by
  rw [← h.task_eq] at hst hc
  obtain ⟨s', hs', hi⟩ := insert_refines h.toRep hn hst hc
  refine ⟨s', hs', hi.rep, fun c => ?_⟩
  by_cases e : (.run c : QId) = q
  · rw [e, hi.tail_eq (hq c e.symm), ← e]; exact h.runTail c
  · rw [hi.queue_eq _ e]; exact h.runTail c

/-- The only process one removes from a run queue is alone in it. -/
theorem Sim.remove (h : Sim s a) (hm : p ∈ a.list q) (hst : (a.task p).state ≠ .running)
    (hq : ∀ c, q = .run c → a.list q = [p]) :
    ∃ s', removeProcFromQueue p (some q) s = (.ok (), s') ∧ Sim s' (a.remove p q) := by
  rw [← h.task_eq] at hst
  obtain ⟨s', hs', hr⟩ := remove_refines h.toRep hst hm
  refine ⟨s', hs', hr.rep, fun c => ?_⟩
  by_cases e : (.run c : QId) = q
  · rw [e]; exact hr.tail_eq (hq c e.symm)
  · rw [hr.queue_eq _ e]; exact h.runTail c

theorem Sim.setTask (h : Sim s a) (p : PId) (f : Task → Task) :
    Sim (s.setProc p fun x => { x with toTask := f x.toTask }) (a.setTask p f) :=
  ⟨h.toRep.setProc p f, h.runTail⟩

theorem Sim.setProc_unlinked (h : Sim s a) (hp : a.Unlinked p) {f : Proc → Proc}
    {g : Task → Task} (hfg : ∀ x, (f x).toTask = g x.toTask) :
    Sim (s.setProc p f) (a.setTask p g) :=
  ⟨h.toRep.setProc_unlinked hp hfg, h.runTail⟩

theorem Sim.setEnv (h : Sim s a) (e : Env) : Sim { s with toEnv := e } { a with env := e } :=
  ⟨h.toRep.setEnv e, h.runTail⟩

theorem Sim.setCpu (h : Sim s a) (c : CpuId) (f : Cpu → Cpu) :
    Sim (s.setCpu c f) { a with env := a.env.setCpu c f } := by
  rw [← h.env_eq]
  exact h.setEnv (s.toEnv.setCpu c f)

/-! ## The invariant -/

/-- The state of a process in each place it can rest in: a queue, or none.  A
process that was hit is `RUNNABLE` wherever it rests. -/
def RestState (hit : Prop) : Option QId → ProcState → Prop
  | some .ready, st => st = .runnable
  | some .sleep, st => st = .sleeping ∨ hit ∧ st = .runnable
  | some (.run _), st => st = .running
  | none, st => st = .unused ∨ st = .zombie ∨ hit ∧ st = .runnable

/-- No CPU has a claim on a process, and no signal is pending unless it was hit. -/
abbrev Task.NoClaim (hit : Prop) (t : Task) : Prop :=
  t.inQueue = false ∧ t.currCpu = none ∧ (¬hit → t.pSig = 0)

/-- The process `p` rests in `dest`: the lists, the CPUs and its own fields agree
on that, and no claim on it is left. -/
structure Rests (hit : Prop) (a : Abs) (p : PId) (dest : Option QId) : Prop where
  mem_iff : ∀ q, p ∈ a.list q ↔ dest = some q
  runningOn_iff : ∀ c, a.env.runningOn c = some p ↔ dest = some (.run c)
  state : RestState hit dest (a.task p).state
  curr_eq : ∀ q, dest = some q → (a.task p).curr = some q
  unclaimed : (a.task p).state ≠ .unused → (a.task p).NoClaim hit

/-- The invariant of the abstract scheduler: every process rests somewhere. -/
def Inv (hit : Prop) (a : Abs) : Prop := ∀ p, ∃ dest, Rests hit a p dest

theorem RestState.runnable_iff {dest : Option QId} {st : ProcState} (h : RestState False dest st) :
    st = .runnable ↔ dest = some .ready := by
  rcases dest with _ | ⟨_ | _ | _⟩ <;> simp only [RestState, false_and, or_false] at h
  · rcases h with h | h <;> simp [h]
  all_goals simp [h]

theorem RestState.sleeping {dest : Option QId} {st : ProcState} (h : RestState hit dest st)
    (hst : st = .sleeping) : dest = some .sleep := by
  subst hst
  rcases dest with _ | ⟨_ | _ | _⟩ <;> simp [RestState] at h ⊢

theorem RestState.running_iff {dest : Option QId} {st : ProcState} (h : RestState hit dest st) :
    st = .running ↔ ∃ c, dest = some (.run c) := by
  rcases dest with _ | ⟨_ | _ | _⟩ <;> simp only [RestState] at h
  · rcases h with h | h | h <;> simp [h]
  · simp [h]
  · rcases h with h | h <;> simp [h]
  · simp [h]

namespace Inv

theorem runnable (h : Inv hit a) (hp : p ∈ a.list .ready) : (a.task p).state = .runnable := by
  obtain ⟨dest, hr⟩ := h p
  have hst := hr.state
  rwa [(hr.mem_iff _).mp hp] at hst

theorem ready_iff (h : Inv False a) (p : PId) :
    p ∈ a.list .ready ↔ (a.task p).state = .runnable := by
  obtain ⟨dest, hr⟩ := h p
  rw [hr.mem_iff, hr.state.runnable_iff]

theorem asleep (h : Inv hit a) (hp : (a.task p).state = .sleeping) : p ∈ a.list .sleep := by
  obtain ⟨dest, hr⟩ := h p
  exact (hr.mem_iff _).mpr (hr.state.sleeping hp)

theorem sleep_iff (h : Inv False a) (p : PId) :
    p ∈ a.list .sleep ↔ (a.task p).state = .sleeping := by
  refine ⟨fun hp => ?_, h.asleep⟩
  obtain ⟨dest, hr⟩ := h p
  have hst := hr.state
  rw [(hr.mem_iff _).mp hp] at hst
  simpa [RestState] using hst

theorem run_iff (h : Inv hit a) (c : CpuId) (p : PId) :
    p ∈ a.list (.run c) ↔ a.env.runningOn c = some p := by
  obtain ⟨dest, hr⟩ := h p
  rw [hr.mem_iff, hr.runningOn_iff]

theorem running_iff (h : Inv hit a) (p : PId) :
    (a.task p).state = .running ↔ ∃ c, a.env.runningOn c = some p := by
  obtain ⟨dest, hr⟩ := h p
  simp only [hr.state.running_iff, hr.runningOn_iff]

theorem curr_eq (h : Inv hit a) (hm : p ∈ a.list q) : (a.task p).curr = some q := by
  obtain ⟨dest, hr⟩ := h p
  exact hr.curr_eq q ((hr.mem_iff q).mp hm)

theorem unclaimed (h : Inv hit a) (hp : (a.task p).state ≠ .unused) :
    (a.task p).NoClaim hit := by
  obtain ⟨dest, hr⟩ := h p
  exact hr.unclaimed hp

/-- A process executes on one CPU at most. -/
theorem runningOn_inj (h : Inv hit a) {c' : CpuId} (hc : a.env.runningOn c = some p)
    (hc' : a.env.runningOn c' = some p) : c' = c := by
  obtain ⟨dest, hr⟩ := h p
  rw [hr.runningOn_iff] at hc hc'
  rw [hc] at hc'
  simpa using hc'.symm

/-- A running process is claimed by no CPU. -/
theorem running_unclaimed (h : Inv hit a) (hp : a.env.runningOn c = some p) :
    (a.task p).NoClaim hit := by
  have hr : (a.task p).state = .running := (h.running_iff p).mpr ⟨c, hp⟩
  exact h.unclaimed (by simp [hr])

/-- The run queue of a CPU that executes `p` is `p` alone. -/
theorem list_run (h : Inv hit a) (hnd : (a.list (.run c)).Nodup) (hp : a.env.runningOn c = some p) :
    a.list (.run c) = [p] := by
  have hm : p ∈ a.list (.run c) := (h.run_iff c p).mpr hp
  have hall : ∀ p' ∈ a.list (.run c), p' = p := fun p' hp' => by
    have := (h.run_iff c p').mp hp'
    rw [hp] at this
    exact (Option.some.inj this).symm
  exact List.perm_singleton.mp ((List.perm_ext_iff_of_nodup hnd (List.nodup_singleton p)).mpr
    fun x => ⟨fun hx => by simp [hall x hx], fun hx => by simp at hx; exact hx ▸ hm⟩)

/-- The run queue of a CPU that executes nothing is empty. -/
theorem list_run_nil (h : Inv hit a) (hp : a.env.runningOn c = none) : a.list (.run c) = [] :=
  List.eq_nil_iff_forall_not_mem.mpr fun p hm => by
    have := (h.run_iff c p).mp hm
    rw [hp] at this
    cases this

/-- The invariant survives any change that concerns one process only and leaves
that process at rest. -/
theorem move (h : Inv hit a) {b : Abs} (p : PId) (dest : Option QId)
    (htask : ∀ p', p' ≠ p → b.task p' = a.task p')
    (hmem : ∀ q p', p' ≠ p → (p' ∈ b.list q ↔ p' ∈ a.list q))
    (hrun : ∀ c p', p' ≠ p → (b.env.runningOn c = some p' ↔ a.env.runningOn c = some p'))
    (hp : Rests hit b p dest) : Inv hit b := by
  intro p'
  by_cases e : p' = p
  · exact ⟨dest, e ▸ hp⟩
  · obtain ⟨dest', hr⟩ := h p'
    refine ⟨dest', fun q => ?_, fun c => ?_, ?_, ?_, ?_⟩
    · rw [hmem q p' e]; exact hr.mem_iff q
    · rw [hrun c p' e]; exact hr.runningOn_iff c
    · rw [htask p' e]; exact hr.state
    · rw [htask p' e]; exact hr.curr_eq
    · rw [htask p' e]; exact hr.unclaimed

/-- A change of one task that keeps the fields the invariant reads. -/
theorem setTask (h : Inv hit a) {f : Task → Task} (hst : (f (a.task p)).state = (a.task p).state)
    (hc : (f (a.task p)).curr = (a.task p).curr)
    (hq : (f (a.task p)).inQueue = (a.task p).inQueue)
    (hk : (f (a.task p)).currCpu = (a.task p).currCpu)
    (hs : (f (a.task p)).pSig = (a.task p).pSig) : Inv hit (a.setTask p f) := by
  obtain ⟨dest, hr⟩ := h p
  refine h.move p dest (fun p' e => by rw [Abs.setTask_task, if_neg e]) (fun _ _ _ => Iff.rfl)
    (fun _ _ _ => Iff.rfl) ⟨hr.mem_iff, hr.runningOn_iff, ?_, ?_, ?_⟩
  · rw [Abs.setTask_task_self, hst]; exact hr.state
  · rw [Abs.setTask_task_self, hc]; exact hr.curr_eq
  · rw [Abs.setTask_task_self, hst, Task.NoClaim, hq, hk, hs]; exact hr.unclaimed

/-- A change of the globals that keeps what each CPU executes. -/
theorem setEnv (h : Inv hit a) {e : Env} (he : ∀ c, e.runningOn c = a.env.runningOn c) :
    Inv hit { a with env := e } := by
  intro p
  obtain ⟨dest, hr⟩ := h p
  exact ⟨dest, hr.mem_iff, fun c => by rw [he c]; exact hr.runningOn_iff c, hr.state, hr.curr_eq,
    hr.unclaimed⟩

end Inv

/-! ## Slots that are not in use -/

/-- A process that is on no queue and no CPU. -/
def Task.Idle (t : Task) : Prop := t.state = .unused ∨ t.state = .zombie

theorem Inv.rests_of_idle (h : Inv hit a) (hp : (a.task p).Idle) : Rests hit a p none := by
  obtain ⟨dest, hr⟩ := h p
  have hst := hr.state
  rcases dest with _ | ⟨_ | _ | _⟩
  · exact hr
  all_goals rcases hp with hp | hp <;> simp [RestState, hp] at hst

theorem Inv.unlinked_of_idle (h : Inv hit a) (hp : (a.task p).Idle) : a.Unlinked p := by
  intro q hm
  have := ((h.rests_of_idle hp).mem_iff q).mp hm
  cases this

section

variable {b : Abs} (h : Inv hit a) (hp : (a.task p).Idle)
  (htask : ∀ p', p' ≠ p → b.task p' = a.task p') (hlist : b.list = a.list)
  (henv : ∀ c, b.env.runningOn c = a.env.runningOn c)

include h hp htask hlist henv

/-- An idle process may be freed. -/
theorem Inv.free (hst : (b.task p).state = .unused) : Inv hit b := by
  have hr := h.rests_of_idle hp
  refine h.move p none htask (fun q p' _ => by rw [hlist]) (fun c p' _ => by rw [henv])
    ⟨fun q => ?_, fun c => ?_, .inl hst, fun q hq => by simp at hq, fun hu => absurd hst hu⟩
  · rw [hlist]; exact hr.mem_iff q
  · rw [henv]; exact hr.runningOn_iff c

/-- An idle process may be made `RUNNABLE` and put into `readyqueue`. -/
theorem Inv.enter (hst : (b.task p).state = .runnable)
    (hu : (b.task p).NoClaim hit) : Inv hit (b.insert p .ready) := by
  have hr := h.rests_of_idle hp
  have htask' : (b.insert p .ready).task p = { b.task p with curr := some .ready } := by
    simp [Abs.insert]
  refine h.move p (some .ready) (fun p' e => ?_) (fun q p' e => ?_) (fun c p' _ => ?_)
    ⟨fun q => ?_, fun c => ?_, ?_, fun q hq => ?_, fun _ => ?_⟩
  · rw [Abs.insert, Abs.setTask_task, if_neg e]; exact htask p' e
  · rw [Abs.mem_insert, hlist]; simp [e]
  · rw [show (b.insert p .ready).env = b.env from rfl, henv]
  · rw [Abs.mem_insert, hlist, hr.mem_iff]; simp [eq_comm]
  · rw [show (b.insert p .ready).env = b.env from rfl, henv, hr.runningOn_iff]; simp
  · simpa [htask', RestState] using hst
  · rw [htask', hq]
  · simpa [htask'] using hu

end

/-! ## A process leaves its CPU -/

theorem Env.runningOn_setCpu (e : Env) (c c' : CpuId) (f : Cpu → Cpu) :
    (e.setCpu c f).runningOn c' =
      if c' = c then
        if c.val < e.ncpu ∧ (f (e.cpu c)).mode = .executing then (f (e.cpu c)).proc else none
      else e.runningOn c' := by
  by_cases h : c' = c
  · subst h; simp [Env.runningOn, Env.setCpu]
  · simp [Env.runningOn, Env.setCpu, h]

/-- `a'` is `a` after the process `p` left CPU `c` for the queue `dest`. -/
structure Departs (hit : Prop) (a : Abs) (c : CpuId) (p : PId) (dest : Option QId) (a' : Abs) :
    Prop where
  task_eq : ∀ p', p' ≠ p → a'.task p' = a.task p'
  mem_iff : ∀ q p', p' ∈ a'.list q ↔ (q ≠ .run c ∧ p' ∈ a.list q) ∨ (dest = some q ∧ p' = p)
  runningOn_eq : ∀ c', a'.env.runningOn c' = if c' = c then none else a.env.runningOn c'
  state : RestState hit dest (a'.task p).state
  curr_eq : ∀ q, dest = some q → (a'.task p).curr = some q
  unclaimed : (a'.task p).NoClaim hit

theorem Departs.inv {a' : Abs} {dest : Option QId} (hd : Departs hit a c p dest a')
    (h : Inv hit a) (hp : a.env.runningOn c = some p) (hdest : ∀ c, dest ≠ some (.run c)) :
    Inv hit a' := by
  obtain ⟨dest0, hr⟩ := h p
  have hdest0 : dest0 = some (.run c) := (hr.runningOn_iff c).mp hp
  -- another process is not in the run queue of `c`
  have hother : ∀ q p', p' ≠ p → p' ∈ a.list q → q ≠ .run c := by
    rintro q p' e hm rfl
    have := (h.run_iff c p').mp hm
    rw [hp] at this
    exact e (Option.some.inj this).symm
  refine h.move p dest hd.task_eq (fun q p' e => ?_) (fun c' p' e => ?_)
    ⟨fun q => ?_, fun c' => ?_, hd.state, hd.curr_eq, fun _ => hd.unclaimed⟩
  · rw [hd.mem_iff]
    constructor
    · rintro (⟨-, hm⟩ | ⟨-, e'⟩)
      · exact hm
      · exact absurd e' e
    · exact fun hm => .inl ⟨hother q p' e hm, hm⟩
  · rw [hd.runningOn_eq]
    split
    · next hc => subst hc; rw [hp]; simp [Ne.symm e]
    · rfl
  · rw [hd.mem_iff, hr.mem_iff, hdest0]
    constructor
    · rintro (⟨hq, he⟩ | ⟨hq, -⟩)
      · exact absurd (Option.some.inj he).symm hq
      · exact hq
    · exact fun hq => .inr ⟨hq, rfl⟩
  · rw [hd.runningOn_eq]
    split
    · simp [hdest]
    · next hc =>
      exact ⟨fun hr' => absurd (h.runningOn_inj hp hr') hc, fun hd' => absurd hd' (hdest c')⟩

/-! ## `sched` and its callers -/

/-- The switch of `p` from CPU `c` to its scheduler. -/
def Abs.switchOut (a : Abs) (c : CpuId) (p : PId) (ctx : Context) : Abs :=
  { a.setTask p fun t => { t with context := ctx } with
    env := a.env.setCpu c fun k => { k with mode := .returning } }

theorem Sim.swtchBack (h : Sim s a) (ctx : Context) :
    ∃ s', swtchBack c p ctx s = (.ok (), s') ∧ Sim s' (a.switchOut c p ctx) := by
  exact ⟨_, rfl, (h.setTask p fun t => { t with context := ctx }).setCpu c fun k =>
    { k with mode := .returning }⟩

/-- `sched` of a process that sleeps or has ended only switches. -/
theorem Sim.sched_quiet (h : Sim s a) (ctx : Context)
    (hst : (a.task p).state = .sleeping ∨ (a.task p).state = .zombie)
    (hk : (a.task p).currCpu = none) :
    ∃ s', sched c p ctx s = (.ok (), s') ∧ Sim s' (a.switchOut c p ctx) := by
  rw [← h.task_eq] at hst hk
  obtain ⟨s', hs', hsim⟩ := h.swtchBack (c := c) (p := p) ctx
  refine ⟨s', ?_, hsim⟩
  rcases hst with hst | hst <;> simp [sched, hst, hk, hs']

/-- `sched` of a process that is `RUNNABLE` and in its run queue moves it to
`readyqueue`. -/
theorem Sim.sched_runnable (h : Sim s a) (ctx : Context) (hst : (a.task p).state = .runnable)
    (hk : (a.task p).currCpu = none) (hq : (a.task p).inQueue = false)
    (hc : (a.task p).curr = some (.run c)) (hl : a.list (.run c) = [p]) :
    ∃ s', sched c p ctx s = (.ok (), s') ∧
      Sim s' (((a.remove p (.run c)).insert p .ready).switchOut c p ctx) := by
  obtain ⟨s1, hs1, h1⟩ := h.remove (q := .run c) (by simp [hl]) (by simp [hst]) (fun _ _ => hl)
  have ht : (a.remove p (.run c)).task p = a.task p := by
    simp [Abs.remove, Task.unclaimed, hq]
  have hun : (a.remove p (.run c)).Unlinked p := h.unlinked_remove (by simp [hl])
  obtain ⟨s2, hs2, h2⟩ := h1.insert (q := .ready) hun (by simp [ht, hst]) (by simp [ht, hc])
    (fun c hc => by cases hc)
  obtain ⟨s3, hs3, h3⟩ := h2.swtchBack (c := c) (p := p) ctx
  rw [← h.task_eq] at hst hk hc
  exact ⟨s3, by simp [sched, hst, hk, hc, bind_of_ok hs1, bind_of_ok hs2, hs3], h3⟩

/-- `sched` of a `PREEMPTED` process, which `purge_queue` has taken off its run
queue already. -/
theorem Sim.sched_preempted (h : Sim s a) (ctx : Context) (hst : (a.task p).state = .preempted)
    (hk : (a.task p).currCpu = none) (hun : a.Unlinked p) :
    ∃ s', sched c p ctx s = (.ok (), s') ∧
      Sim s' (((a.setTask p fun t => { t with
        pPri := LOW_USER_PRIORITY, state := .runnable, curr := none }).insert p .ready).switchOut
          c p ctx) := by
  have h1 := h.setTask p fun t => { t with
    pPri := LOW_USER_PRIORITY, state := .runnable, curr := none }
  obtain ⟨s2, hs2, h2⟩ := h1.insert (p := p) (q := .ready) hun (by simp) (by simp)
    (fun c hc => by cases hc)
  obtain ⟨s3, hs3, h3⟩ := h2.swtchBack (c := c) (p := p) ctx
  rw [← h.task_eq] at hst hk
  exact ⟨s3, by simp [sched, hst, hk, bind_of_ok hs2, hs3], h3⟩

/-! ## `purge_queue` on a run queue -/

/-- Taking and dropping a free lock changes nothing. -/
theorem Sched.relock_eq (h : (s.queue q).qloc = false) :
    ((s.setQueue q fun pq => { pq with qloc := true }).setQueue q fun pq =>
      { pq with qloc := false }) = s := by
  have hpq : ({ s.queue q with qloc := false } : PQueue) = s.queue q := by rw [← h]
  simp [Sched.setQueue, hpq]

theorem Rep.next_of_single (h : Rep s a) (hl : a.list q = [p]) : (s.proc p).next = none := by
  have hw := (h.wf q).linked
  rw [hl] at hw
  exact hw.next_eq [] p [] rfl

/-- `purge_queue` leaves a `RUNNABLE` process where it is. -/
theorem Sim.purge_runnable (h : Sim s a) (hl : a.list q = [p])
    (hst : (a.task p).state = .runnable) : purgeQueue q s = (.ok (), s) := by
  have hlock := h.unlocked q
  have hhead : (s.queue q).head = some p := by rw [(h.wf q).head_eq, hl]; rfl
  have hnext := h.toRep.next_of_single hl
  rw [← h.task_eq] at hst
  simp [purgeQueue, bind_of_ok (acquire_ok hlock), hhead, NPROC, purgeLoop, hst, hnext,
    release_ok, Sched.relock_eq hlock]

/-- `purge_queue` takes a process that is not `RUNNABLE` off its run queue. -/
theorem Sim.purge_preempted (h : Sim s a) (hl : a.list (.run c) = [p])
    (hst : (a.task p).state = .preempted) :
    ∃ s', purgeQueue (.run c) s = (.ok (), s') ∧ Sim s' (a.remove p (.run c)) := by
  obtain ⟨s', hs', h'⟩ := h.remove (q := .run c) (by simp [hl]) (by simp [hst]) (fun _ _ => hl)
  have hlock := h.unlocked (.run c)
  have hlock' := h'.unlocked (.run c)
  have hhead : (s.queue (.run c)).head = some p := by rw [(h.wf _).head_eq, hl]; rfl
  have hnext := h.toRep.next_of_single hl
  rw [← h.task_eq] at hst
  have hnext' : (s'.proc p).next = none := by
    rw [removeProcFromQueue_only (by simp [hst]) hlock h.checkUnlocked hhead hnext] at hs'
    cases hs'
    simp
  refine ⟨s', ?_, h'⟩
  have hrel : release (.run c) (s.setQueue (.run c) fun pq => { pq with qloc := true }) =
      (.ok (), s) := by
    rw [release_ok (by simp), Sched.relock_eq hlock]
  simp [purgeQueue, bind_of_ok (acquire_ok hlock), hhead, NPROC, purgeLoop, hst, bind_of_ok hrel,
    bind_of_ok hs', bind_of_ok (acquire_ok hlock'), hnext', release_ok, Sched.relock_eq hlock']

/-! ## Leaving a run queue -/

/-- `b` is `a` with `p` off the run queue of CPU `c`, and nothing else moved. -/
structure Leaves (hit : Prop) (a : Abs) (c : CpuId) (p : PId) (b : Abs) : Prop where
  task_eq : ∀ p', p' ≠ p → b.task p' = a.task p'
  mem_iff : ∀ q p', p' ∈ b.list q ↔ q ≠ .run c ∧ p' ∈ a.list q
  runningOn_eq : ∀ c', b.env.runningOn c' = a.env.runningOn c'
  unclaimed : (b.task p).NoClaim hit

/-- Taking the only process of a run queue off it. -/
theorem Leaves.remove (hl : a.list (.run c) = [p]) {b : Abs}
    (htask : ∀ p', p' ≠ p → b.task p' = a.task p') (hlist : b.list = a.list)
    (henv : ∀ c', b.env.runningOn c' = a.env.runningOn c')
    (hu : (b.task p).NoClaim hit) : Leaves hit a c p (b.remove p (.run c)) where
  task_eq p' hne := by
    rw [Abs.remove, Abs.setTask_task, if_neg hne]
    exact htask p' hne
  mem_iff q p' := by
    rw [Abs.mem_remove (by simp [hlist, hl]), hlist]
    constructor
    · rintro ⟨hm, hn⟩
      refine ⟨?_, hm⟩
      rintro rfl
      rw [hl, List.mem_singleton] at hm
      exact hn ⟨rfl, hm⟩
    · rintro ⟨hq, hm⟩
      exact ⟨hm, fun e => hq e.1⟩
  runningOn_eq := henv
  unclaimed := by
    rw [Abs.remove, Abs.setTask_task_self, Abs.setList_task, Task.unclaimed,
      if_neg (by simp [hu.1])]
    exact hu

theorem Leaves.setTask {b : Abs} (h : Leaves hit a c p b) {f : Task → Task}
    (hu : (f (b.task p)).NoClaim hit) : Leaves hit a c p (b.setTask p f) where
  task_eq p' hne := by rw [Abs.setTask_task, if_neg hne]; exact h.task_eq p' hne
  mem_iff := h.mem_iff
  runningOn_eq := h.runningOn_eq
  unclaimed := by simpa using hu

/-- `sleep` and `exit` take their process off its run queue. -/
theorem Sim.leaveQueue (h : Sim s a) (hl : a.list (.run c) = [p])
    (hst : (a.task p).state ≠ .running) (hk : (a.task p).currCpu = none)
    (hc : (a.task p).curr = some (.run c)) :
    ∃ s', leaveQueue p s = (.ok (), s') ∧ Sim s' (a.remove p (.run c)) := by
  obtain ⟨s', hs', h'⟩ := h.remove (q := .run c) (by simp [hl]) hst (fun _ _ => hl)
  rw [← h.task_eq] at hk hc
  exact ⟨s', by simp [Xv6Rework.leaveQueue, hk, hc, hs'], h'⟩

/-- A process off its run queue is linked nowhere. -/
theorem Leaves.unlinked {b : Abs} (h : Leaves hit a c p b)
    (hd : ∀ q q' p, p ∈ a.list q → p ∈ a.list q' → q = q') (hm : p ∈ a.list (.run c)) :
    b.Unlinked p := fun q hp =>
  ((h.mem_iff q p).mp hp).1 (hd q (.run c) p ((h.mem_iff q p).mp hp).2 hm)

theorem Env.runningOn_returning (e : Env) (c c' : CpuId) :
    (e.setCpu c fun k => { k with mode := .returning }).runningOn c' =
      if c' = c then none else e.runningOn c' := by
  rw [Env.runningOn_setCpu]
  simp

/-- Switching away from a process that has left its run queue for another queue. -/
theorem Leaves.departs {b : Abs} (h : Leaves hit a c p b) (ctx : Context)
    (hst : RestState hit (some q) (b.task p).state) :
    Departs hit a c p (some q) ((b.insert p q).switchOut c p ctx) where
  task_eq p' hne := by
    simp only [Abs.switchOut, Abs.insert, Abs.setTask_task, if_neg hne, Abs.setList_task]
    exact h.task_eq p' hne
  mem_iff q' p' := by
    rw [show ((b.insert p q).switchOut c p ctx).list = (b.insert p q).list from rfl,
      Abs.mem_insert, h.mem_iff, Option.some.injEq, eq_comm (a := q)]
  runningOn_eq c' := by
    rw [Abs.switchOut, Env.runningOn_returning]
    split
    · rfl
    · exact h.runningOn_eq c'
  state := by simpa [Abs.switchOut, Abs.insert] using hst
  curr_eq q' hq := by
    cases hq
    simp [Abs.switchOut, Abs.insert]
  unclaimed := by simpa [Abs.switchOut, Abs.insert] using h.unclaimed

/-- Switching away from a process that has left its run queue for good. -/
theorem Leaves.departs_none {b : Abs} (h : Leaves hit a c p b) (ctx : Context)
    (hst : (b.task p).state = .zombie) : Departs hit a c p none (b.switchOut c p ctx) where
  task_eq p' hne := by
    simp only [Abs.switchOut, Abs.setTask_task, if_neg hne]
    exact h.task_eq p' hne
  mem_iff q' p' := by
    rw [show (b.switchOut c p ctx).list = b.list from rfl, h.mem_iff]
    simp
  runningOn_eq c' := by
    rw [Abs.switchOut, Env.runningOn_returning]
    split
    · rfl
    · exact h.runningOn_eq c'
  state := .inr (.inl (by simpa [Abs.switchOut] using hst))
  curr_eq q' hq := by cases hq
  unclaimed := by simpa [Abs.switchOut] using h.unclaimed

end Xv6Rework
