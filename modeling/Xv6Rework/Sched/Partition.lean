import Xv6Rework.Sched.Steps

/-!
# The scheduler's queues partition its processes

From the state `userinit` leaves, on any number of CPUs and in any interleaving
of the steps of `Sched/Proc.lean`, every queue is a well-formed list, each
queue links exactly the processes it is for, and `shift_queue` is only ever
called on an empty queue.
-/

namespace Xv6Rework

open Prog

/-- The states `userinit` leaves, on a machine with at most `NCPU` CPUs. -/
def Booted (s : Sched) : Prop :=
  ∃ ncpu, 0 < ncpu ∧ ncpu ≤ NCPU ∧ userinit (Sched.boot ncpu) = (.ok (), s)

/-- The states the machine can reach. -/
abbrev Reachable : Sched → Prop := Reach Booted Step

theorem Reachable.consistent {s : Sched} (h : Reachable s) : Consistent s := by
  refine h.invariant ?_ fun s act s' hs hstep => hstep.consistent hs
  rintro s ⟨ncpu, -, -, hs⟩
  obtain ⟨a, h, hi, -⟩ := of_leads ⟨_, userinit_leads False ncpu⟩ hs
  exact ⟨a, h, hi⟩

/-- The state after a run from start-up. -/
def runFrom (ncpu : Nat) (acts : List Act) : Except Stop Unit × Sched :=
  (do userinit; acts.forM exec) (Sched.boot ncpu)

theorem Reachable.of_runFrom {ncpu : Nat} {acts : List Act} (h0 : 0 < ncpu) (h1 : ncpu ≤ NCPU)
    (h : (runFrom ncpu acts).1 = .ok ()) : Reachable (runFrom ncpu acts).2 := by
  have hrun : runFrom ncpu acts = (.ok (), (runFrom ncpu acts).2) := Prod.ext h rfl
  obtain ⟨_, s, hs, hacts⟩ := bind_eq_ok hrun
  exact Reach.forM (.init ⟨ncpu, h0, h1, hs⟩) hacts

/-- The partition of the processes by the scheduler's queues. -/
structure QueuePartition (s : Sched) : Prop where
  wf : ∀ q, QueueWf s q (s.links q)
  ready_iff : ∀ p, p ∈ s.links .ready ↔ (s.proc p).state = .runnable
  sleep_iff : ∀ p, p ∈ s.links .sleep ↔ (s.proc p).state = .sleeping
  run_eq : ∀ c, s.links (.run c) = (s.runningOn c).toList
  running_iff : ∀ p, (s.proc p).state = .running ↔ ∃ c, s.runningOn c = some p
  once : ∀ p q q', p ∈ s.links q → p ∈ s.links q' → q = q'
  unlocked : ∀ q, (s.queue q).qloc = false
  shift_nil : ∀ c, c.val < s.ncpu → (s.cpu c).mode = .returning →
    (s.queue (.run c)).head = none ∧ shiftQueue (.run c) s = (.ok (), s)

theorem Consistent.queuePartition {s : Sched} (h : Consistent s) : QueuePartition s := by
  obtain ⟨a, h, hi⟩ := h
  have hlinks : ∀ q, s.links q = a.list q := fun q => (h.wf q).links_eq
  refine ⟨fun q => ?_, fun p => ?_, fun p => ?_, fun c => ?_, fun p => ?_,
    fun p q q' => ?_, h.unlocked, fun c _ hm => ?_⟩
  · rw [hlinks]; exact h.wf q
  · rw [hlinks, hi.ready_iff, ← h.task_eq]
  · rw [hlinks, hi.sleep_iff, ← h.task_eq]
  · rw [hlinks, h.env_eq]
    cases hc : a.env.runningOn c with
    | none => exact hi.list_run_nil hc
    | some p => exact h.list_run hi hc
  · rw [h.env_eq, ← hi.running_iff, ← h.task_eq]
  · rw [hlinks, hlinks]; exact h.disjoint q q' p
  · have hc : a.env.runningOn c = none := by
      rw [← h.env_eq]
      simp [Env.runningOn, hm]
    have hl := hi.list_run_nil hc
    exact ⟨by rw [(h.wf _).head_eq, hl]; rfl, shiftQueue_nil h hl⟩

/-- In every reachable state the queues partition the processes. -/
theorem queuePartition_of_reachable {s : Sched} (h : Reachable s) : QueuePartition s :=
  h.consistent.queuePartition

/-- Two processes forked on one of two CPUs: one asleep, one executing, one ready. -/
theorem queuePartition_three_processes :
    QueuePartition (runFrom 2 [.schedule 0, .fork 0 true true, .fork 0 true true,
      .sleep 0 (.addr 1), .switchBack 0, .schedule 1]).2 :=
  queuePartition_of_reachable (.of_runFrom (by decide) (by decide) (by decide +kernel))

end Xv6Rework
