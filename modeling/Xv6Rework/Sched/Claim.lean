import Xv6Rework.Sched.Partition

/-!
# Claiming a process

The pick-up of `scheduler` as several CPUs really run it: reading the head of
`readyqueue`, testing `p->curr`, `claim_proc`, `remove_proc_from_queue` and
`insert_proc_into_queue` are separate steps, and steps of different CPUs
interleave.  Each call is one step, since it runs under one lock.

`remove_proc_from_queue` ends with `unclaim_proc`, so the claim taken by
`claim_proc` is gone before the process is in the run queue.  Hence a process in
a run queue never carries the claim, and a CPU that read the head of
`readyqueue` earlier can claim a process that is no longer there.
-/

namespace Xv6Rework

open Prog

/-! ## The machine -/

/-- Where a CPU is in the pick-up: the call it makes next. -/
inductive Pc where
  | read
  | test (p : PId)
  | claim (p : PId)
  | remove (p : PId)
  | insert (p : PId)
  | done
deriving DecidableEq, Repr

/-- The scheduler with a program counter for each CPU. -/
structure Pick where
  sched : Sched
  pc : CpuId → Pc

/-- Continue at `pc`. -/
def goto (c : CpuId) (pc : Pc) : Prog Pick Unit :=
  update fun s => { s with pc := Function.update s.pc c pc }

/-- A call on the scheduler's state. -/
def call {α : Type} (x : SchedM α) : Prog Pick α := fun s =>
  ((x s.sched).1, { s with sched := (x s.sched).2 })

/-- The next step of CPU `c`. -/
def pickStep (c : CpuId) : Prog Pick Unit := do
  match (← gets fun s => s.pc c) with
  | .read =>
    match (← gets fun s => (s.sched.queue .ready).head) with
    | none => pure ()
    | some p => goto c (.test p)
  | .test p =>
    if (← gets fun s => (s.sched.proc p).curr) = some .ready then goto c (.claim p)
    else goto c .read
  | .claim p => do
    if (← call (claimProc p c)) then goto c (.remove p) else goto c .read
  | .remove p => do
    call (removeProcFromQueue p (some .ready))
    goto c (.insert p)
  | .insert p => do
    call (insertProcIntoQueue p (some (.run c)))
    goto c .done
  | .done => pure ()

/-- The next step of CPU `c`, if the machine has it. -/
def pick (c : CpuId) : Prog Pick Unit := do
  if (← gets fun s => s.sched.ncpu) ≤ c.val then stop .hang else pickStep c

/-- A step of a CPU of the machine. -/
def PickStep (s : Pick) (c : CpuId) (s' : Pick) : Prop := pick c s = (.ok (), s')

/-- All CPUs are about to look for a process, in a state the scheduler can reach. -/
def PickStart (s : Pick) : Prop :=
  Reachable s.sched ∧ (∀ c, s.sched.runningOn c = none) ∧ ∀ c, s.pc c = .read

/-! ## The property -/

/-- Exclusive claims: a process is linked once, a CPU about to remove a process
finds it in `readyqueue` (so that the removal returns and drops its lock), and a
process in a run queue is claimed for that CPU. -/
structure Exclusive (s : Pick) : Prop where
  once : ∀ p q q', q ≠ .sleep → q' ≠ .sleep → p ∈ s.sched.links q → p ∈ s.sched.links q' → q = q'
  present : ∀ c p, s.pc c = .remove p → p ∈ s.sched.links .ready ∧
    ∃ t, removeProcFromQueue p (some .ready) s.sched = (.ok (), t) ∧ (t.queue .ready).qloc = false
  claimed : ∀ c p, p ∈ s.sched.links (.run c) →
    (s.sched.proc p).inQueue = true ∧ (s.sched.proc p).currCpu = some c

/-- The step of CPU `c` is neither an insertion nor a successful claim of a
process that has left `readyqueue`. -/
def Timely (s : Pick) (c : CpuId) : Prop :=
  match s.pc c with
  | .claim p => (s.sched.proc p).inQueue = false → p ∈ s.sched.links .ready
  | .insert _ => False
  | _ => True

/-! ## The invariant -/

variable {s s' : Pick} {a : Abs} {c : CpuId} {p : PId}

/-- The invariant of the pick-up while no process has been inserted anywhere. -/
structure Picking (s : Pick) (a : Abs) : Prop extends Sim s.sched a where
  run_nil : ∀ c, a.list (.run c) = []
  ready : ∀ p ∈ a.list .ready, (a.task p).state = .runnable
  removing : ∀ c p, s.pc c = .remove p →
    (a.task p).inQueue = true ∧ (a.task p).currCpu = some c
  inserting : ∀ c p, s.pc c = .insert p → a.Unlinked p ∧ (a.task p).state = .runnable ∧
    (a.task p).inQueue = false ∧ (a.task p).curr = none

/-- What is left of the property under the invariant. -/
theorem Picking.exclusive_iff (h : Picking s a) :
    Exclusive s ↔ ∀ c p, s.pc c = .remove p → p ∈ a.list .ready := by
  have hlinks : ∀ q, s.sched.links q = a.list q := fun q => (h.wf q).links_eq
  constructor
  · intro he c p hp
    rw [← hlinks]
    exact (he.present c p hp).1
  · intro hpres
    refine ⟨fun p q q' _ _ => ?_, fun c p hp => ?_, fun c p hp => ?_⟩
    · rw [hlinks, hlinks]; exact h.disjoint q q' p
    · have hm := hpres c p hp
      obtain ⟨t, ht, hsim⟩ := h.toSim.remove hm (by simp [h.ready p hm]) (fun c hc => by cases hc)
      exact ⟨by rw [hlinks]; exact hm, t, ht, hsim.unlocked .ready⟩
    · rw [hlinks, h.run_nil] at hp
      simp at hp

/-! ## One step -/

/-- `s` with CPU `c` at `pc` and the scheduler in state `t`. -/
def Pick.advance (s : Pick) (c : CpuId) (pc : Pc) (t : Sched) : Pick :=
  ⟨t, Function.update s.pc c pc⟩

theorem Pick.advance_pc (s : Pick) (c c' : CpuId) (pc : Pc) (t : Sched) :
    (s.advance c pc t).pc c' = if c' = c then pc else s.pc c' := by
  simp [Pick.advance, Function.update_apply]

/-- What one step does to the invariant: either it is timely and the property
stays true, or it is not and the property fails. -/
def StepOutcome (s : Pick) (c : CpuId) (s' : Pick) : Prop :=
  (Timely s c ∧ Exclusive s' ∧ ∃ a', Picking s' a') ∨ (¬Timely s c ∧ ¬Exclusive s')

/-- A step that only moves on to a call other than a removal or an insertion. -/
theorem Picking.advance (h : Picking s a) (he : Exclusive s) (c : CpuId) (pc : Pc)
    (hr : ∀ p, pc ≠ .remove p) (hi : ∀ p, pc ≠ .insert p) :
    Exclusive (s.advance c pc s.sched) ∧ Picking (s.advance c pc s.sched) a := by
  have hpc : ∀ c' p', (s.advance c pc s.sched).pc c' = .remove p' → s.pc c' = .remove p' := by
    intro c' p' hp
    rw [Pick.advance_pc] at hp
    split at hp
    · exact absurd hp (hr p')
    · exact hp
  have hpc' : ∀ c' p', (s.advance c pc s.sched).pc c' = .insert p' → s.pc c' = .insert p' := by
    intro c' p' hp
    rw [Pick.advance_pc] at hp
    split at hp
    · exact absurd hp (hi p')
    · exact hp
  have h' : Picking (s.advance c pc s.sched) a :=
    ⟨h.toSim, h.run_nil, h.ready, fun c' p' hp => h.removing c' p' (hpc c' p' hp),
      fun c' p' hp => h.inserting c' p' (hpc' c' p' hp)⟩
  exact ⟨h'.exclusive_iff.mpr fun c' p' hp => h.exclusive_iff.mp he c' p' (hpc c' p' hp), h'⟩

theorem call_ok {α : Type} {x : SchedM α} {r : α} {t : Sched} (h : x s.sched = (.ok r, t)) :
    call x s = (.ok r, { s with sched := t }) := by
  simp [call, h]

/-- A claim keeps the property exactly if it fails or the process is still in
`readyqueue`. -/
theorem Picking.claim (h : Picking s a) (he : Exclusive s) (hpc : s.pc c = .claim p)
    (hs : pickStep c s = (.ok (), s')) : StepOutcome s c s' := by
  have hlinks : s.sched.links .ready = a.list .ready := (h.wf _).links_eq
  have htimely : Timely s c ↔ ((s.sched.proc p).inQueue = false → p ∈ a.list .ready) := by
    simp [Timely, hpc, hlinks]
  cases hq : (s.sched.proc p).inQueue with
  | true =>
    have hcall := call_ok (claimProc_taken (c := c) h.checkUnlocked hq)
    obtain rfl : s.advance c .read s.sched = s' := by
      simpa [pickStep, hpc, bind_of_ok hcall, goto, Pick.advance] using hs
    have hadv := h.advance he c .read (by simp) (by simp)
    exact .inl ⟨htimely.mpr (by simp [hq]), hadv.1, a, hadv.2⟩
  | false =>
    have hcall := call_ok (claimProc_ok (c := c) h.checkUnlocked hq)
    have h1 := h.toSim.setTask p fun t => { t with inQueue := true, currCpu := some c }
    obtain rfl : s.advance c (.remove p) (s.sched.setProc p fun x =>
        { x with inQueue := true, currCpu := some c }) = s' := by
      simpa [pickStep, hpc, bind_of_ok hcall, goto, Pick.advance] using hs
    by_cases hm : p ∈ a.list .ready
    · have hne : ∀ c' p', s.pc c' = .insert p' → p' ≠ p := by
        rintro c' p' hp rfl
        exact (h.inserting c' p' hp).1 _ hm
      have hfree : ∀ c' p', s.pc c' = .remove p' → p' ≠ p := by
        rintro c' p' hp rfl
        have := (h.removing c' p' hp).1
        rw [← h.task_eq, hq] at this
        cases this
      have h' : Picking (s.advance c (.remove p) (s.sched.setProc p fun x =>
          { x with inQueue := true, currCpu := some c }))
          (a.setTask p fun t => { t with inQueue := true, currCpu := some c }) := by
        refine ⟨h1, h.run_nil, fun p' hp' => ?_, fun c' p' hp' => ?_, fun c' p' hp' => ?_⟩
        · rw [Abs.setTask_task]
          split
          · exact h.ready p hm
          · exact h.ready p' hp'
        · rw [Pick.advance_pc] at hp'
          split at hp'
          · next e => cases hp'; simp [e]
          · rw [Abs.setTask_task, if_neg (hfree c' p' hp')]
            exact h.removing c' p' hp'
        · rw [Pick.advance_pc] at hp'
          split at hp'
          · cases hp'
          · rw [Abs.setTask_task, if_neg (hne c' p' hp')]
            exact h.inserting c' p' hp'
      refine .inl ⟨htimely.mpr fun _ => hm, h'.exclusive_iff.mpr fun c' p' hp' => ?_, _, h'⟩
      rw [Pick.advance_pc] at hp'
      split at hp'
      · cases hp'; exact hm
      · exact h.exclusive_iff.mp he c' p' hp'
    · refine .inr ⟨fun ht => hm (htimely.mp ht hq), fun he' => hm ?_⟩
      have hp := (he'.present c p (by simp [Pick.advance_pc])).1
      have hl : (s.sched.setProc p fun x =>
          { x with inQueue := true, currCpu := some c }).links .ready = a.list .ready :=
        (h1.wf _).links_eq
      exact hl ▸ hp

/-- A removal takes its process, which is still in `readyqueue`, off it. -/
theorem Picking.remove (h : Picking s a) (he : Exclusive s) (hpc : s.pc c = .remove p)
    (hs : pickStep c s = (.ok (), s')) : StepOutcome s c s' := by
  have hpres := h.exclusive_iff.mp he
  have hm := hpres c p hpc
  have hst := h.ready p hm
  have hclaim := h.removing c p hpc
  have hnd := (h.wf .ready).linked.nodup
  obtain ⟨t, ht, hsim⟩ := h.toSim.remove hm (by simp [hst]) (fun c hc => by cases hc)
  obtain rfl : s.advance c (.insert p) t = s' := by
    simpa [pickStep, hpc, bind_of_ok (call_ok ht), goto, Pick.advance] using hs
  -- no other CPU is about to remove the same process: the claim names `c`
  have hother : ∀ c' p', c' ≠ c → s.pc c' = .remove p' → p' ≠ p := by
    rintro c' p' hc hp' rfl
    have := (h.removing c' p' hp').2
    rw [hclaim.2] at this
    exact hc (Option.some.inj this).symm
  have htask : (a.remove p .ready).task p =
      { a.task p with inQueue := false, currCpu := none, curr := none } := by
    simp [Abs.remove, Task.unclaimed, hclaim.1]
  have htask' : ∀ p', p' ≠ p → (a.remove p .ready).task p' = a.task p' := fun p' e => by
    rw [Abs.remove, Abs.setTask_task, if_neg e, Abs.setList_task]
  have h' : Picking (s.advance c (.insert p) t) (a.remove p .ready) := by
    refine ⟨hsim, fun c' => ?_, fun p' hp' => ?_, fun c' p' hp' => ?_, fun c' p' hp' => ?_⟩
    · simp [Abs.remove, Abs.setList_list, h.run_nil]
    · obtain ⟨hp', hn⟩ := (Abs.mem_remove hnd).mp hp'
      rw [htask' p' fun e => hn ⟨rfl, e⟩]
      exact h.ready p' hp'
    · rw [Pick.advance_pc] at hp'
      split at hp'
      · cases hp'
      · next hc =>
        rw [htask' p' (hother c' p' hc hp')]
        exact h.removing c' p' hp'
    · rw [Pick.advance_pc] at hp'
      split at hp'
      · cases hp'
        exact ⟨h.unlinked_remove hm, by simp [htask, hst], by simp [htask], by simp [htask]⟩
      · have hi := h.inserting c' p' hp'
        have hne : p' ≠ p := fun e => hi.1 .ready (e ▸ hm)
        rw [htask' p' hne]
        exact ⟨fun q hq => hi.1 q ((Abs.mem_remove hnd).mp hq).1, hi.2⟩
  refine .inl ⟨by simp [Timely, hpc], h'.exclusive_iff.mpr fun c' p' hp' => ?_, _, h'⟩
  rw [Pick.advance_pc] at hp'
  split at hp'
  · cases hp'
  · next hc => exact (Abs.mem_remove hnd).mpr ⟨hpres c' p' hp', fun e => hother c' p' hc hp' e.2⟩

/-- An insertion puts a process without a claim into the run queue. -/
theorem Picking.insert (h : Picking s a) (hpc : s.pc c = .insert p)
    (hs : pickStep c s = (.ok (), s')) : StepOutcome s c s' := by
  obtain ⟨hun, hst, hq, hcurr⟩ := h.inserting c p hpc
  obtain ⟨t, ht, hsim⟩ := h.toSim.insert (q := .run c) hun (by simp [hst]) (by simp [hcurr])
    (fun c' _ => h.run_nil c)
  obtain rfl : s.advance c .done t = s' := by
    simpa [pickStep, hpc, bind_of_ok (call_ok ht), goto, Pick.advance] using hs
  refine .inr ⟨by simp [Timely, hpc], fun he => ?_⟩
  have hlinks : t.links (.run c) = (a.insert p (.run c)).list (.run c) := (hsim.wf _).links_eq
  have hclaimed := (he.claimed c p (by
    show p ∈ t.links (.run c)
    rw [hlinks]
    exact Abs.mem_insert.mpr (.inr ⟨rfl, rfl⟩))).1
  have hfree : (t.proc p).inQueue = false := by
    rw [hsim.task_eq]
    simp [Abs.insert, hq]
  exact absurd (hfree.symm.trans hclaimed) (by simp)

/-- One step of any CPU. -/
theorem Picking.step (h : Picking s a) (he : Exclusive s) (hs : PickStep s c s') :
    StepOutcome s c s' := by
  replace hs : pickStep c s = (.ok (), s') := by
    rw [PickStep, pick, bind_gets] at hs
    split at hs
    · cases hs
    · exact hs
  have hskip : ∀ pc, s.advance c pc s.sched = s' → Timely s c → (∀ p, pc ≠ .remove p) →
      (∀ p, pc ≠ .insert p) → StepOutcome s c s' := by
    rintro pc rfl ht hr hi
    have hadv := h.advance he c pc hr hi
    exact .inl ⟨ht, hadv.1, a, hadv.2⟩
  cases hpc : s.pc c with
  | read =>
    have ht : Timely s c := by simp [Timely, hpc]
    cases hhead : (s.sched.queue .ready).head with
    | none =>
      obtain rfl : s = s' := by simpa [pickStep, hpc, hhead] using hs
      exact .inl ⟨ht, he, a, h⟩
    | some p =>
      exact hskip (.test p) (by simpa [pickStep, hpc, hhead, goto, Pick.advance] using hs) ht
        (by simp) (by simp)
  | test p =>
    have ht : Timely s c := by simp [Timely, hpc]
    by_cases hcurr : (s.sched.proc p).curr = some .ready
    · exact hskip (.claim p) (by simpa [pickStep, hpc, hcurr, goto, Pick.advance] using hs) ht
        (by simp) (by simp)
    · exact hskip .read (by simpa [pickStep, hpc, hcurr, goto, Pick.advance] using hs) ht
        (by simp) (by simp)
  | claim p => exact h.claim he hpc hs
  | remove p => exact h.remove he hpc hs
  | insert p => exact h.insert hpc hs
  | done =>
    obtain rfl : s = s' := by simpa [pickStep, hpc] using hs
    exact .inl ⟨by simp [Timely, hpc], he, a, h⟩

/-! ## Whole runs -/

theorem PickStart.picking (h : PickStart s) : ∃ a, Picking s a := by
  obtain ⟨hr, hidle, hpc⟩ := h
  obtain ⟨a, hsim, hi⟩ := hr.consistent
  refine ⟨a, hsim, fun c => hi.list_run_nil ?_, fun p hp => (hi.ready_iff p).mp hp,
    fun c p hp => ?_, fun c p hp => ?_⟩
  · rw [← hsim.env_eq]; exact hidle c
  · rw [hpc] at hp; cases hp
  · rw [hpc] at hp; cases hp

/-- Claims are exclusive in every state of a run exactly if every step of the run
is timely. -/
theorem exclusive_always_iff_timely {l : List (CpuId × Pick)} (h0 : PickStart s)
    (h : Trace PickStep s l) : Trace.Always Exclusive s l ↔ Trace.Meets Timely s l := by
  obtain ⟨a, ha⟩ := h0.picking
  have hex : Exclusive s := ha.exclusive_iff.mpr fun c p hp => by
    rw [h0.2.2] at hp
    cases hp
  refine h.always_iff_meets (fun s => ∃ a, Picking s a) ?_ ?_ ⟨a, ha⟩ hex
  · rintro s c s' ⟨a, ha⟩ he ht hs
    rcases ha.step he hs with ⟨-, -, h'⟩ | ⟨hn, -⟩
    · exact h'
    · exact absurd ht hn
  · rintro s c s' ⟨a, ha⟩ he hs
    rcases ha.step he hs with ⟨ht, he', -⟩ | ⟨ht, he'⟩
    · exact ⟨fun _ => ht, fun _ => he'⟩
    · exact ⟨fun h => absurd h he', fun h => absurd h ht⟩

/-- Two CPUs with two processes in `readyqueue`. -/
def pickTwo : Pick :=
  ⟨(runFrom 2 [.schedule 0, .fork 0 true true, .yield 0, .switchBack 0]).2, fun _ => .read⟩

theorem pickStart_pickTwo : PickStart pickTwo :=
  ⟨.of_runFrom (by decide) (by decide) (by decide +kernel), by decide +kernel, fun _ => rfl⟩

/-- Up to the removal, one CPU alone keeps the property. -/
theorem exclusive_always_first_removal :
    Trace.Always Exclusive pickTwo (Trace.run pick pickTwo [0, 0, 0, 0]) :=
  (exclusive_always_iff_timely pickStart_pickTwo (Trace.of_run (by decide +kernel))).mpr
    ⟨trivial, trivial, fun _ => by decide +kernel, trivial, trivial⟩

/-- CPU 1 reads the head and tests it before CPU 0 claims and removes it, and
claims it after. -/
def lateClaim : List CpuId := [0, 1, 0, 1, 0, 0, 1]

/-- After a late claim CPU 1 removes a process that is not in `readyqueue`, and
the removal returns with the lock of `readyqueue` held. -/
theorem not_exclusive_lateClaim : PickStart pickTwo ∧
    Trace PickStep pickTwo (Trace.run pick pickTwo lateClaim) ∧
    ¬Trace.Always Exclusive pickTwo (Trace.run pick pickTwo lateClaim) ∧
    (Trace.run pick pickTwo (lateClaim ++ [1])).getLast?.map
      (fun x => (x.2.sched.queue .ready).qloc) = some true := by
  refine ⟨pickStart_pickTwo, Trace.of_run (by decide +kernel), fun h => ?_, by decide +kernel⟩
  have hlast := (h.2 _ (List.getElem_mem (by decide : 6 < (Trace.run pick pickTwo
    lateClaim).length))).present 1 ⟨1, by decide⟩ (by decide +kernel)
  exact absurd hlast.1 (by decide +kernel)

end Xv6Rework
