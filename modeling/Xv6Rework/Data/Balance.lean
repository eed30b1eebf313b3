import Xv6Rework.Data.QueueOrder
import Xv6Rework.Lib.Frame

/-!
# Shifting and balancing

The two functions of `kernel/data/queue.c` that move a process from a run queue to the ready
queue.

* `shift_queue` is meant to move the head.  It does so for no queue at all: a queue of one
  process is removed from while its lock is held, and on the way for longer queues `len` is
  never counted down.
* `do_balance` is meant to move the last process of every queue that is too long, and does.
  It works on all queues at once, so its result is about all of them together: no process is
  lost, and none is linked twice.
-/

namespace Xv6Rework

open Prog

variable {s : Sched} {q : QId} {l r : List PId}

/-! ## Shifting -/

/-- A queue that `shift_queue` may be called for, beside the ready queue. -/
structure Shiftable (s : Sched) (q : QId) (l r : List PId) : Prop where
  ne_ready : q ≠ .ready
  wf : QueueWf s q l
  wf_ready : QueueWf s .ready r
  disjoint : ∀ p ∈ l, p ∉ r
  head : ∀ x, l.head? = some x → (s.proc x).state ≠ .running
  unlocked : (s.queue q).qloc = false
  unlocked_ready : (s.queue .ready).qloc = false
  check : s.checkLock = false

/-- What `shift_queue` is for: the first process leaves the queue, and goes to the ready queue
if it is `RUNNABLE`. -/
structure Shifted (s : Sched) (q : QId) (l r : List PId) (s' : Sched) : Prop where
  wf : QueueWf s' q l.tail
  empty : l = [] → s'.queue q = s.queue q
  ready : ∀ x, l.head? = some x → (s.proc x).state = .runnable →
    QueueWf s' .ready (Abs.place s.task x r)

/-- Shifting an empty queue takes its lock and drops it. -/
theorem shiftQueue_empty (hwf : QueueWf s q []) (hlock : (s.queue q).qloc = false) :
    shiftQueue q s = (.ok (), s) := by
  have hhead : (s.queue q).head = none := hwf.head_eq
  rw [shiftQueue, bind_gets, hhead]
  dsimp only
  rw [bind_of_ok (acquire_ok hlock)]
  exact release_acquired hlock

/-- Shifting a queue of one process ends in `acquire`: `remove_proc_from_queue` takes the lock
that `shift_queue` holds. -/
theorem shiftQueue_one {x : PId} (hwf : QueueWf s q [x]) (hlock : (s.queue q).qloc = false)
    (hcheck : s.checkLock = false) (hx : (s.proc x).state ≠ .running) :
    (shiftQueue q s).1 = .error (.panic "acquire") := by
  have hhead : (s.queue q).head = some x := hwf.head_eq
  have hnext : (s.proc x).next = none := hwf.linked.next_head
  have hx' : (Task.unclaimed (s.proc x).toTask).state ≠ .running := by
    unfold Task.unclaimed
    split <;> exact hx
  simp [shiftQueue, hhead, hx, hlock, hnext, bind_of_ok (unclaimProc_ok _), hcheck,
    removeProcFromQueue, hx', acquire]

section

variable (q)

/-- States in which the queue counts the same number of processes. -/
def SameLen : Sched → Sched → Prop := Same fun s => (s.queue q).len

instance : IsPreorder Sched (SameLen q) := inferInstanceAs (IsPreorder Sched (Same _))

variable {q} {q' : QId} {p : PId}

theorem SameLen.setProc {f : Proc → Proc} : Keeps (SameLen q) (update fun s => s.setProc p f) :=
  .update fun _ => rfl

/-- A store to another queue, or one that leaves `len` alone. -/
theorem SameLen.setQueue {f : PQueue → PQueue} (h : q' = q → ∀ pq, (f pq).len = pq.len) :
    Keeps (SameLen q) (update fun s => s.setQueue q' f) := by
  refine .update fun s => ?_
  by_cases hq : q' = q
  · subst hq
    simp [SameLen, Same, h rfl]
  · simp [SameLen, Same, Sched.setQueue_queue, Ne.symm hq]

theorem acquire_sameLen : Keeps (SameLen q) (acquire q') :=
  .bind .gets fun _ => .ite .halt (SameLen.setQueue fun _ _ => rfl)

theorem release_sameLen : Keeps (SameLen q) (release q') :=
  .bind .gets fun _ => .ite (SameLen.setQueue fun _ _ => rfl) .halt

theorem unclaimProc_sameLen : Keeps (SameLen q) (unclaimProc p) :=
  .bind (.bind .gets fun _ => .ite .halt (.update fun _ => rfl)) fun _ => .bind .gets fun _ =>
    .bind SameLen.setProc fun _ =>
      .bind (.bind .gets fun _ => .ite (.update fun _ => rfl) .halt) fun _ => .pure

theorem findPlace_sameLen {k : Nat} {x : Option PId} : Keeps (SameLen q) (findPlace p k x) := by
  induction k generalizing x with
  | zero => cases x with
    | none => exact .pure
    | some _ => exact .stop
  | succ k ih => cases x with
    | none => exact .pure
    | some _ => exact .bind .gets fun _ => .ite .pure (.bind .gets fun _ => ih)

/-- Insertion counts in its own queue only. -/
theorem insertProcIntoQueue_sameLen (hq : q' ≠ q) :
    Keeps (SameLen q) (insertProcIntoQueue p (some q')) := by
  have hset : ∀ f, Keeps (SameLen q) (update fun s => s.setQueue q' f) :=
    fun f => SameLen.setQueue fun h => absurd h hq
  have hfinish : Keeps (SameLen q) (finishInsert p q') :=
    .bind (hset _) fun _ => .bind SameLen.setProc fun _ => release_sameLen
  refine .bind .gets fun _ => .ite .halt (.bind .gets fun _ => .ite .pure
    (.bind acquire_sameLen fun _ => .bind .gets fun head => ?_))
  cases head with
  | none => exact .bind (hset _) fun _ => .bind SameLen.setProc fun _ => hfinish
  | some h =>
    refine .bind .gets fun next => ?_
    cases next with
    | none =>
      exact .bind (hset _) fun _ => .bind SameLen.setProc fun _ => .bind SameLen.setProc
        fun _ => hfinish
    | some this =>
      refine .bind findPlace_sameLen fun place => ?_
      cases place with
      | some this =>
        refine .bind .gets fun before => .bind SameLen.setProc fun _ => ?_
        cases before with
        | some b => exact .bind SameLen.setProc fun _ => .bind SameLen.setProc fun _ => hfinish
        | none => exact .bind (hset _) fun _ => .bind SameLen.setProc fun _ => hfinish
      | none =>
        refine .bind .gets fun tail => ?_
        cases tail with
        | none => exact .halt
        | some t =>
          exact .bind SameLen.setProc fun _ => .bind SameLen.setProc fun _ => .bind (hset _)
            fun _ => hfinish

end

/-- On the way for a queue of two processes or more `len` stays. -/
theorem shiftQueue_sameLen {x y : PId} (hne : q ≠ .ready) (hwf : QueueWf s q (x :: y :: l))
    (hlock : (s.queue q).qloc = false) {s' : Sched} (hs' : shiftQueue q s = (.ok (), s')) :
    (s'.queue q).len = (s.queue q).len := by
  have hhead : (s.queue q).head = some x := hwf.head_eq
  have hnext : (s.proc x).next = some y := hwf.linked.next_head
  have hinsert : Keeps (SameLen q) (insertProcIntoQueue x (some .ready)) :=
    insertProcIntoQueue_sameLen (Ne.symm hne)
  -- after the lock is taken and the two pointers are read, no store is to `len`
  have hend : Keeps (SameLen q) (do
      let pq ← gets fun s : Sched => s.queue q
      if pq.head ≠ none ∧ pq.head = pq.tail then halt "head eq tail" : SchedM Unit) :=
    .bind .gets fun _ => .ite .halt .pure
  have hrest : Keeps (SameLen q) (do
      update fun s => s.setProc y fun p => { p with prev := none }
      update fun s => s.setQueue q fun pq => { pq with head := some y }
      update fun s => s.setProc x fun p => { p with next := none }
      let _ ← unclaimProc x
      release q
      if (← gets fun s => (s.proc x).state) = .runnable then
        insertProcIntoQueue x (some .ready)
      let pq ← gets fun s => s.queue q
      if pq.head ≠ none ∧ pq.head = pq.tail then
        halt "head eq tail" : SchedM Unit) :=
    .bind SameLen.setProc fun _ => .bind (SameLen.setQueue fun _ _ => rfl) fun _ =>
      .bind SameLen.setProc fun _ => .bind unclaimProc_sameLen fun _ => .bind release_sameLen
        fun _ =>
      .bind .gets fun _ => .ite (.bind hinsert fun _ => hend) hend
  rw [shiftQueue, bind_gets, hhead] at hs'
  dsimp only at hs'
  rw [bind_gets] at hs'
  split at hs'
  · cases hs'
  · rw [bind_of_ok (acquire_ok hlock), bind_gets, Sched.setQueue_proc, hnext] at hs'
    have hlen : SameLen q (s.setQueue q fun pq => { pq with qloc := true }) s' :=
      Keeps.bind .gets (fun _ => .ite (.bind hinsert fun _ => hrest) hrest) _ _ _ hs'
    simpa [SameLen, Same] using hlen

/-- `shift_queue` shifts a queue exactly when there is nothing to shift. -/
theorem shiftQueue_shifted_iff (h : Shiftable s q l r) :
    (∃ s', shiftQueue q s = (.ok (), s') ∧ Shifted s q l r s') ↔ l = [] := by
  constructor
  · rintro ⟨s', hs', hshifted⟩
    match l, h, hshifted with
    | [], _, _ => rfl
    | [x], h, _ =>
      have hpanic := shiftQueue_one h.wf h.unlocked h.check (h.head x rfl)
      rw [hs'] at hpanic
      cases hpanic
    | x :: y :: l, h, hshifted =>
      have hlen := shiftQueue_sameLen h.ne_ready h.wf h.unlocked hs'
      rw [hshifted.wf.len_eq, h.wf.len_eq] at hlen
      simp only [List.tail_cons, List.length_cons] at hlen
      omega
  · rintro rfl
    refine ⟨s, shiftQueue_empty h.wf h.unlocked, h.wf, fun _ => rfl, fun x hx => ?_⟩
    cases hx

/-- `idle` with the processes of `l` on CPU 0. -/
def running (l : List PId) : Sched :=
  (l.forM (fun p => insertProcIntoQueue p (some (.run 0))) idle).2

theorem shiftQueue_shifted_running : ∃ s', shiftQueue (.run 0) (running []) = (.ok (), s') ∧
    Shifted (running []) (.run 0) [] [] s' := by
  have h : Shiftable (running []) (.run 0) [] [] :=
    ⟨by decide, by decide, by decide, by decide, by decide, by decide, by decide, by decide⟩
  exact (shiftQueue_shifted_iff h).mpr rfl

/-- A process alone on its CPU makes `shift_queue` panic; of two, the first leaves the queue and
goes to the ready queue, and `len` still says two. -/
theorem shiftQueue_not_shifted :
    Shiftable (running [4]) (.run 0) [4] [] ∧
    (shiftQueue (.run 0) (running [4])).1 = .error (.panic "acquire") ∧
    Shiftable (running [4, 5, 1]) (.run 0) [4, 5, 1] [] ∧
    ∃ s', shiftQueue (.run 0) (running [4, 5, 1]) = (.ok (), s') ∧
      (s'.links (.run 0), (s'.queue (.run 0)).len) = ([5, 1], 3) := by
  refine ⟨⟨by decide, by decide, by decide, by decide, by decide, by decide, by decide, by decide⟩,
    by decide,
    ⟨by decide, by decide, by decide, by decide, by decide, by decide, by decide, by decide⟩, _,
    run_eq (by decide), by decide⟩

/-! ## Balancing -/

/-- The queues `do_balance` works on: those of the CPUs there are, and the ready queue. -/
def Sched.Active (s : Sched) : QId → Prop
  | .run c => c.val < s.ncpu
  | .sleep => False
  | .ready => True

/-- The active queues are well-formed lists without a common process, and no lock is held. -/
structure Queues (s : Sched) (list : QId → List PId) : Prop where
  ncpu_pos : 1 ≤ s.ncpu
  ncpu_le : s.ncpu ≤ NCPU
  wf : ∀ q, s.Active q → QueueWf s q (list q)
  disjoint : ∀ q q' p, s.Active q → s.Active q' → p ∈ list q → p ∈ list q' → q = q'
  unlocked : ∀ q, s.Active q → (s.queue q).qloc = false
  check : s.checkLock = false

/-- What balancing does to the queues.  Those that are `chosen` lose their last process to the
ready queue, the other run queues stay as they are, and no process is lost. -/
structure Balanced (s : Sched) (list : QId → List PId) (chosen : CpuId → Prop) (s' : Sched)
    (list' : QId → List PId) : Prop where
  queues : Queues s' list'
  env_eq : s'.toEnv = s.toEnv
  linked : ∀ p, (∃ q, s.Active q ∧ p ∈ list' q) ↔ ∃ q, s.Active q ∧ p ∈ list q
  ready : ∀ p ∈ list .ready, p ∈ list' .ready
  moved : ∀ c, c.val < s.ncpu → chosen c → ∃ p, (list (.run c)).getLast? = some p ∧
    list' (.run c) = (list (.run c)).dropLast ∧ p ∈ list' .ready
  kept : ∀ c, c.val < s.ncpu → ¬chosen c → s'.queue (.run c) = s.queue (.run c) ∧
    list' (.run c) = list (.run c) ∧ ∀ p ∈ list (.run c), s'.proc p = s.proc p

variable {list list' list'' : QId → List PId} {c : CpuId} {s' s'' : Sched}

theorem Sched.active_congr (h : s'.toEnv = s.toEnv) : s'.Active q ↔ s.Active q := by
  cases q with
  | run c => rw [Sched.Active, Sched.Active, h]
  | sleep => exact Iff.rfl
  | ready => exact Iff.rfl

/-- Nothing is chosen. -/
theorem Balanced.refl {chosen : CpuId → Prop} (h : Queues s list)
    (hc : ∀ c, c.val < s.ncpu → ¬chosen c) : Balanced s list chosen s list where
  queues := h
  env_eq := rfl
  linked _ := Iff.rfl
  ready _ hp := hp
  moved c hcpu hch := absurd hch (hc c hcpu)
  kept _ _ _ := ⟨rfl, rfl, fun _ _ => rfl⟩

/-- First some queues are chosen, then others. -/
theorem Balanced.trans {one two : CpuId → Prop} (h : Balanced s list one s' list')
    (h' : Balanced s' list' two s'' list'') (hne : ∀ c, one c → ¬two c) :
    Balanced s list (fun c => one c ∨ two c) s'' list'' where
  queues := h'.queues
  env_eq := h'.env_eq.trans h.env_eq
  linked p := by
    rw [← h.linked p]
    simp only [← Sched.active_congr h.env_eq]
    exact h'.linked p
  ready p hp := h'.ready p (h.ready p hp)
  moved c hcpu hc := by
    have hcpu' : c.val < s'.ncpu := by rw [h.env_eq]; exact hcpu
    rcases hc with hone | htwo
    · obtain ⟨p, hlast, hdrop, hp⟩ := h.moved c hcpu hone
      obtain ⟨-, hlist, -⟩ := h'.kept c hcpu' (hne c hone)
      exact ⟨p, hlast, hlist.trans hdrop, h'.ready p hp⟩
    · obtain ⟨-, hlist, -⟩ := h.kept c hcpu fun hone => hne c hone htwo
      rw [← hlist]
      exact h'.moved c hcpu' htwo
  kept c hcpu hc := by
    have hcpu' : c.val < s'.ncpu := by rw [h.env_eq]; exact hcpu
    obtain ⟨hq, hlist, hproc⟩ := h.kept c hcpu fun hone => hc (.inl hone)
    obtain ⟨hq', hlist', hproc'⟩ := h'.kept c hcpu' fun htwo => hc (.inr htwo)
    refine ⟨hq'.trans hq, hlist'.trans hlist, fun p hp => ?_⟩
    rw [hproc' p (hlist ▸ hp), hproc p hp]

/-- The tail of a well-formed queue, where there is one, is its last process. -/
theorem QueueWf.getLast?_eq {p : PId} (h : QueueWf s q l) (ht : (s.queue q).tail = some p) :
    l.getLast? = some p := by
  have htail := h.tail_of
  rw [ht] at htail
  match l, htail with
  | [a], htail => simpa [TailOf, eq_comm] using htail
  | a :: b :: l, htail => exact htail.symm

/-- A process that a change of another queue leaves alone. -/
theorem Relinked.proc_eq {p p' : PId} {l' : List PId} {f : Task → Task}
    (h : Relinked s q p l l' f s') (hp : p' ∉ l) (hne : p' ≠ p) : s'.proc p' = s.proc p' := by
  have htask := h.task_eq p' hne
  obtain ⟨hnext, hprev⟩ := h.links_eq p' hp hne
  cases hs : s.proc p'
  cases hs' : s'.proc p'
  simp_all

/-- A queue that a change of another queue leaves alone. -/
theorem Relinked.wf_other {p : PId} {l1 l2 : List PId} {q' : QId} {f : Task → Task}
    (h : Relinked s q p l1 l2 f s') (hq : q' ≠ q) (hwf : QueueWf s q' l)
    (hd : ∀ x ∈ l, x ∉ l1 ∧ x ≠ p) : QueueWf s' q' l :=
  hwf.congr (h.queue_eq q' hq) fun x hx => h.links_eq x (hd x hx).1 (hd x hx).2

/-- One round of `do_balance` that finds a process to move. -/
theorem migrate_ok {p : PId} (h : Queues s list) (hcpu : c.val < s.ncpu)
    (ht : (s.queue (.run c)).tail = some p) (hst : (s.proc p).state ≠ .running)
    (hcurr : (s.proc p).curr = some (.run c)) :
    ∃ s' list', (do
        removeProcFromQueue p (← gets fun s => (s.proc p).curr)
        insertProcIntoQueue p (some .ready) : SchedM Unit) s = (.ok (), s') ∧
      Balanced s list (· = c) s' list' := by
  have hwf := h.wf (.run c) hcpu
  have hlast := hwf.getLast?_eq ht
  have hmem : p ∈ list (.run c) := List.mem_of_getLast? hlast
  have hd : ∀ q, s.Active q → q ≠ .run c → ∀ x ∈ list q, x ∉ list (.run c) ∧ x ≠ p := by
    intro q hq hne x hx
    have hx' : x ∉ list (.run c) := fun hc => hne (h.disjoint q (.run c) x hq hcpu hx hc)
    exact ⟨hx', fun e => hx' (e ▸ hmem)⟩
  obtain ⟨s1, hs1, hrem⟩ := remove_erases (h.unlocked (.run c) hcpu) h.check hst hwf hmem
  have hdrop : (list (.run c)).erase p = (list (.run c)).dropLast := by
    obtain ⟨l, hl⟩ := List.getLast?_eq_some_iff.mp hlast
    have hnd := hwf.linked.nodup
    rw [hl] at hnd ⊢
    rw [List.erase_append_right _ fun hc => (List.disjoint_of_nodup_append hnd) hc (by simp)]
    simp
  -- the process has left its run queue, and the ready queue is as it was
  have hready : QueueWf s1 .ready (list .ready) :=
    hrem.wf_other (by simp) (h.wf .ready trivial) (hd .ready trivial (by simp))
  have hlock : (s1.queue .ready).qloc = false := by
    rw [hrem.queue_eq .ready (by simp)]
    exact h.unlocked .ready trivial
  have hst1 : (s1.proc p).state ≠ .running := by
    rw [hrem.task_self]
    unfold Task.unclaimed
    split <;> exact hst
  have hcurr1 : (s1.proc p).curr ≠ some .ready := by
    rw [hrem.task_self]
    unfold Task.unclaimed
    split <;> simp [hcurr]
  have hp : p ∉ list .ready := fun hc => (hd .ready trivial (by simp) p hc).2 rfl
  obtain ⟨s2, hs2, hins⟩ := insert_places hlock hst1 hcurr1 hready hp
  have henv : s2.toEnv = s.toEnv := hins.env_eq.trans hrem.env_eq
  have hother : ∀ q, s.Active q → q ≠ .run c → q ≠ .ready → ∀ x ∈ list q, s2.proc x = s.proc x := by
    intro q hq hne hne' x hx
    obtain ⟨hx', hxp⟩ := hd q hq hne x hx
    have hxr : x ∉ list .ready := fun hc => hne' (h.disjoint q .ready x hq trivial hx hc)
    rw [hins.proc_eq hxr hxp, hrem.proc_eq hx' hxp]
  set list1 := Function.update (Function.update list (.run c) (list (.run c)).dropLast) .ready
    (Abs.place s1.task p (list .ready)) with hlist1
  have hrun : list1 (.run c) = (list (.run c)).dropLast := by simp [hlist1]
  have hrdy : list1 .ready = Abs.place s1.task p (list .ready) := by simp [hlist1]
  have hsame : ∀ q, q ≠ .run c → q ≠ .ready → list1 q = list q := by
    intro q hq hq'
    simp [hlist1, hq, hq']
  -- the process is now in the ready queue, and every other one where it was
  have hwhere : ∀ q x, s.Active q → (x ∈ list1 q ↔ x = p ∧ q = .ready ∨ x ≠ p ∧ x ∈ list q) := by
    intro q x hq
    by_cases hrc : q = .run c
    · subst hrc
      rw [hrun, ← hdrop, hwf.linked.nodup.mem_erase_iff]
      simp
    · have hd' := hd q hq hrc x
      by_cases hr : q = .ready
      · subst hr
        rw [hrdy, Abs.mem_place]
        tauto
      · rw [hsame q hrc hr]
        tauto
  refine ⟨s2, list1, ?_, ⟨henv ▸ h.ncpu_pos, henv ▸ h.ncpu_le, ?_, ?_, ?_, ?_⟩, henv, fun x => ?_,
    fun x hx => ?_, ?_, ?_⟩
  · rw [bind_gets, hcurr, bind_of_ok hs1, hs2]
  · intro q hq
    rw [Sched.active_congr henv] at hq
    by_cases hr : q = .ready
    · subst hr
      exact hrdy ▸ hins.wf
    by_cases hrc : q = .run c
    · subst hrc
      rw [hrun, ← hdrop]
      refine hins.wf_other (by simp) hrem.wf fun x hx => ?_
      rw [hwf.linked.nodup.mem_erase_iff] at hx
      exact ⟨fun hc => (hd .ready trivial (by simp) x hc).1 hx.2, hx.1⟩
    · rw [hsame q hrc hr]
      refine hins.wf_other hr (hrem.wf_other hrc (h.wf q hq) (hd q hq hrc)) fun x hx => ?_
      exact ⟨fun hc => hr (h.disjoint q .ready x hq trivial hx hc), (hd q hq hrc x hx).2⟩
  · intro q q' x hq hq' hx hx'
    rw [Sched.active_congr henv] at hq hq'
    rw [hwhere q x hq] at hx
    rw [hwhere q' x hq'] at hx'
    rcases hx with ⟨rfl, rfl⟩ | ⟨hne, hx⟩ <;> rcases hx' with ⟨he, rfl⟩ | ⟨hne', hx'⟩
    · rfl
    · exact absurd rfl hne'
    · exact absurd he hne
    · exact h.disjoint q q' x hq hq' hx hx'
  · intro q hq
    rw [Sched.active_congr henv] at hq
    by_cases hr : q = .ready
    · rw [hr]; exact hins.unlocked
    rw [hins.queue_eq q hr]
    by_cases hrc : q = .run c
    · rw [hrc]; exact hrem.unlocked
    · rw [hrem.queue_eq q hrc]; exact h.unlocked q hq
  · rw [hins.check_eq, hrem.check_eq, h.check]
  · constructor
    · rintro ⟨q, hq, hx⟩
      rcases (hwhere q x hq).mp hx with ⟨rfl, -⟩ | ⟨-, hx⟩
      · exact ⟨.run c, hcpu, hmem⟩
      · exact ⟨q, hq, hx⟩
    · rintro ⟨q, hq, hx⟩
      by_cases hxp : x = p
      · exact ⟨.ready, trivial, (hwhere .ready x trivial).mpr (.inl ⟨hxp, rfl⟩)⟩
      · exact ⟨q, hq, (hwhere q x hq).mpr (.inr ⟨hxp, hx⟩)⟩
  · rw [hrdy, Abs.mem_place]
    exact .inr hx
  · rintro c' - rfl
    exact ⟨p, hlast, hrun, by simp [hrdy]⟩
  · intro c' hc' hne
    have hrc : QId.run c' ≠ .run c := by simpa using hne
    have hr : QId.run c' ≠ .ready := by simp
    refine ⟨?_, hsame _ hrc hr, hother _ hc' hrc hr⟩
    rw [hins.queue_eq _ hr, hrem.queue_eq _ hrc]

/-- The run queues from which a round of `do_balance` moves a process. -/
def Sched.Chosen (s : Sched) (mask : CpuId → Bool) (c : CpuId) : Prop :=
  mask c = true ∧ (s.queue (.run c)).tail ≠ none

/-- The members of a run queue are not `RUNNING`, and their `curr` says where they are. -/
def AtHome (s : Sched) (list : QId → List PId) (c : CpuId) : Prop :=
  ∀ p ∈ list (.run c), (s.proc p).state ≠ .running ∧ (s.proc p).curr = some (.run c)

theorem balanceOne_ok (mask : CpuId → Bool) (h : Queues s list) (hcpu : c.val < s.ncpu)
    (hset : AtHome s list c) : ∃ s' list', balanceOne mask c s = (.ok (), s') ∧
      Balanced s list (fun c' => c' = c ∧ s.Chosen mask c) s' list' := by
  by_cases hm : mask c = true
  · cases ht : (s.queue (.run c)).tail with
    | none =>
      refine ⟨s, list, by simp [balanceOne, hm, ht], .refl h ?_⟩
      rintro c' - ⟨-, -, hne⟩
      exact hne ht
    | some p =>
      have hmem := List.mem_of_getLast? ((h.wf (.run c) hcpu).getLast?_eq ht)
      obtain ⟨s', list', hs', hb⟩ := migrate_ok h hcpu ht (hset p hmem).1 (hset p hmem).2
      refine ⟨s', list', ?_, ?_⟩
      · rw [← hs', balanceOne, if_pos hm, bind_gets, ht]
      · have hch : s.Chosen mask c := ⟨hm, by simp [ht]⟩
        simpa only [hch, and_true] using hb
  · refine ⟨s, list, by simp [balanceOne, hm], .refl h ?_⟩
    rintro c' - ⟨-, hch, -⟩
    exact hm hch

/-- The loop of `do_balance`: each CPU has its turn once. -/
theorem balanceLoop_ok (mask : CpuId → Bool) (cs : List CpuId) (hnd : cs.Nodup) (h : Queues s list)
    (hcs : ∀ c ∈ cs, c.val < s.ncpu) (hset : ∀ c ∈ cs, AtHome s list c) :
    ∃ s' list', cs.forM (balanceOne mask) s = (.ok (), s') ∧
      Balanced s list (fun c => c ∈ cs ∧ s.Chosen mask c) s' list' := by
  induction cs generalizing s list with
  | nil => exact ⟨s, list, rfl, .refl h fun _ _ hc => by simp at hc⟩
  | cons c cs ih =>
    obtain ⟨hc, hnd⟩ := List.nodup_cons.mp hnd
    have hcpu := hcs c (by simp)
    obtain ⟨s1, list1, hs1, hb1⟩ := balanceOne_ok mask h hcpu (hset c (by simp))
    -- the queues whose turn is still to come are as they were
    have hlater : ∀ c' ∈ cs, s1.queue (.run c') = s.queue (.run c') ∧ list1 (.run c') =
        list (.run c') ∧ ∀ p ∈ list (.run c'), s1.proc p = s.proc p :=
      fun c' hc' => hb1.kept c' (hcs c' (by simp [hc'])) fun ⟨e, _⟩ => hc (e ▸ hc')
    obtain ⟨s2, list2, hs2, hb2⟩ := ih hnd hb1.queues
      (fun c' hc' => by rw [hb1.env_eq]; exact hcs c' (by simp [hc'])) fun c' hc' p hp => by
        obtain ⟨-, hlist, hproc⟩ := hlater c' hc'
        rw [hlist] at hp
        rw [hproc p hp]
        exact hset c' (by simp [hc']) p hp
    refine ⟨s2, list2, ?_, ?_⟩
    · rw [List.forM, bind_of_ok hs1, hs2]
    · have hb := hb1.trans hb2 (by rintro c' ⟨rfl, -⟩ ⟨hc', -⟩; exact hc hc')
      convert hb using 2 with c'
      simp only [List.mem_cons]
      constructor
      · rintro ⟨rfl | hc', hch⟩
        · exact .inl ⟨rfl, hch⟩
        · exact .inr ⟨hc', hch.1, by rw [(hlater c' hc').1]; exact hch.2⟩
      · rintro (⟨rfl, hch⟩ | ⟨hc', hch⟩)
        · exact ⟨.inl rfl, hch⟩
        · exact ⟨.inr hc', hch.1, by rw [← (hlater c' hc').1]; exact hch.2⟩

/-- The length above which a run queue is too long: that of the average, rounded down, and a
quarter more, rounded down again. -/
def Sched.limit (s : Sched) (list : QId → List PId) : Nat :=
  5 * ((s.cpus.map fun c => (list (.run c)).length).sum / s.ncpu) / 4

/-- The counters add up to the number of linked processes. -/
theorem Queues.sum_len (h : Queues s list) (cs : List CpuId) (hcs : ∀ c ∈ cs, c.val < s.ncpu) :
    (cs.map fun c => (s.queue (.run c)).len).sum =
      ((cs.map fun c => (list (.run c)).length).sum : Nat) := by
  induction cs with
  | nil => rfl
  | cons c cs ih =>
    have hlen := (h.wf (.run c) (hcs c (by simp))).len_eq
    simp only [List.map_cons, List.sum_cons, hlen, ih fun c' hc' => hcs c' (by simp [hc'])]
    omega

/-- The mask of `queues_need_balance` is that of the queues that are too long. -/
theorem queuesNeedBalance_ok (h : Queues s list) : ∃ mask, queuesNeedBalance s = (.ok mask, s) ∧
    ∀ c, c.val < s.ncpu → (mask c = true ↔ s.limit list < (list (.run c)).length) := by
  have hlimit : (((s.cpus.map fun c => (s.queue (.run c)).len).sum.tdiv s.ncpu * 125).tdiv 100) =
      (s.limit list : Int) := by
    rw [h.sum_len s.cpus (by simp [Env.cpus]), Sched.limit]
    rw [← Int.ofNat_tdiv]
    generalize (s.cpus.map fun c => (list (.run c)).length).sum / s.ncpu = ideal
    rw [Int.tdiv_eq_ediv_of_nonneg (by omega)]
    omega
  refine ⟨_, rfl, fun c hc => ?_⟩
  dsimp only
  rw [hlimit, (h.wf (.run c) hc).len_eq]
  simp only [hc, decide_true, Bool.true_and, decide_eq_true_eq]
  omega

/-- Balancing loses no process.  The queues that are too long and have a `tail` lose their
last process to the ready queue. -/
theorem doBalance_balanced (h : Queues s list)
    (hset : ∀ q, s.Active q → ∀ p ∈ list q,
      (s.proc p).state ≠ .running ∧ (s.proc p).curr = some q) :
    ∃ s' list', (do doBalance (← queuesNeedBalance) : SchedM Unit) s = (.ok (), s') ∧
      Balanced s list
        (fun c => s.limit list < (list (.run c)).length ∧ (s.queue (.run c)).tail ≠ none)
        s' list' := by
  obtain ⟨mask, hmask, hlong⟩ := queuesNeedBalance_ok h
  have hcpus : ∀ c, c ∈ s.cpus ↔ c.val < s.ncpu := by simp [Env.cpus]
  obtain ⟨s', list', hs', hb⟩ := balanceLoop_ok mask s.cpus ((List.nodup_finRange NCPU).filter _) h
    (fun c hc => (hcpus c).mp hc) fun c hc => hset (.run c) ((hcpus c).mp hc)
  refine ⟨s', list', ?_, ?_⟩
  · rw [bind_of_ok hmask, doBalance, bind_gets, hs']
  · exact { hb with
      moved := fun c hc hch => hb.moved c hc ⟨(hcpus c).mpr hc, (hlong c hc).mpr hch.1, hch.2⟩
      kept := fun c hc hch => hb.kept c hc fun hch' => hch ⟨(hlong c hc).mp hch'.2.1, hch'.2.2⟩ }

/-- Two CPUs, the first with three processes and the second with none. -/
def lopsided : Sched :=
  ([4, 5, 1].forM (fun p => insertProcIntoQueue p (some (.run 0))) { idle with ncpu := 2 }).2

theorem doBalance_balanced_lopsided :
    ∃ (s' : Sched) (list' : QId → List PId),
      (do doBalance (← queuesNeedBalance) : SchedM Unit) lopsided = (.ok (), s') ∧
      QueueWf s' (.run 0) (list' (.run 0)) ∧ list' (.run 0) = [4, 5] ∧ 1 ∈ list' .ready := by
  set list : QId → List PId := fun q => if q = .run 0 then [4, 5, 1] else [] with hlist
  have hwf : ∀ q, QueueWf lopsided q (list q) ∧ (lopsided.queue q).qloc = false := by
    intro q
    cases q with
    | run c => revert c; decide
    | sleep => decide
    | ready => decide
  have hmem : ∀ q p, p ∈ list q → q = .run 0 := by
    intro q p hp
    by_contra hq
    simp [hlist, hq] at hp
  have hset : ∀ p ∈ list (.run 0), (lopsided.proc p).state ≠ .running ∧
      (lopsided.proc p).curr = some (.run 0) := by decide
  have hqueues : Queues lopsided list := ⟨by decide, by decide, fun q _ => (hwf q).1,
    fun q q' p _ _ hp hp' => (hmem q p hp).trans (hmem q' p hp').symm, fun q _ =>
    (hwf q).2, by decide⟩
  obtain ⟨s', list', hs', hb⟩ := doBalance_balanced hqueues fun q _ p hp => by
    obtain rfl := hmem q p hp
    exact hset p hp
  have hcpu : (0 : CpuId).val < lopsided.ncpu := by decide
  obtain ⟨p, hlast, hdrop, hp⟩ := hb.moved 0 hcpu (by decide)
  obtain rfl : p = 1 := by simpa [hlist] using hlast.symm
  exact ⟨s', list', hs', hb.queues.wf (.run 0) ((Sched.active_congr hb.env_eq).mpr hcpu),
    hdrop.trans (by decide), hp⟩

end Xv6Rework
