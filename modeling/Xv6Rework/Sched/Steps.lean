import Xv6Rework.Lib.Machine
import Xv6Rework.Sched.Wakeup

/-!
# Every step of the machine keeps the invariant

One lemma per action of `Sched/Proc.lean`.  The actions in which a process
gives up its CPU return from every consistent state; `wakeup1` and `exit`
may panic, and so may `scheduler` at a process with a signal pending; the lemmas
then say what holds when they do not.
-/

namespace Xv6Rework

open Prog

variable {s s' : Sched} {a : Abs} {c : CpuId} {p : PId} {hit : Prop}

/-- `s` represents an abstract state that satisfies the invariant. -/
def Consistent (s : Sched) : Prop := ∃ a, Sim s a ∧ Inv False a

/-- A state in which a process is neither free nor ended. -/
def ProcState.Live (st : ProcState) : Prop := st ≠ .unused ∧ st ≠ .zombie

instance (st : ProcState) : Decidable st.Live := inferInstanceAs (Decidable (_ ∧ _))

/-- The slot `p` holds the same process in both states: it is in use, and has
ended, in both or in neither, with the same pid.  A slot that is free or whose
process has ended also keeps `killed`, which the next process in it starts
with. -/
structure Abs.SameId (a a' : Abs) (p : PId) : Prop where
  pid_eq : (a'.task p).pid = (a.task p).pid
  unused_iff : (a'.task p).state = .unused ↔ (a.task p).state = .unused
  zombie_iff : (a'.task p).state = .zombie ↔ (a.task p).state = .zombie
  killed_eq : ¬(a.task p).state.Live → (a'.task p).killed = (a.task p).killed

namespace Abs.SameId

variable {a a' : Abs}

theorem of_eq (h : a'.task p = a.task p) : a.SameId a' p := by
  constructor <;> simp [h]

theorem of_live (hpid : (a'.task p).pid = (a.task p).pid) (h : (a.task p).state.Live)
    (h' : (a'.task p).state.Live) : a.SameId a' p :=
  ⟨hpid, iff_of_false h'.1 h.1, iff_of_false h'.2 h.2, fun hn => absurd h hn⟩

theorem live_iff (h : a.SameId a' p) : (a'.task p).state.Live ↔ (a.task p).state.Live :=
  and_congr h.unused_iff.not h.zombie_iff.not

theorem trans {b : Abs} (h : a.SameId a' p) (h' : a'.SameId b p) : a.SameId b p :=
  ⟨h'.pid_eq.trans h.pid_eq, h'.unused_iff.trans h.unused_iff, h'.zombie_iff.trans h.zombie_iff,
    fun hn => (h'.killed_eq (h.live_iff.not.mpr hn)).trans (h.killed_eq hn)⟩

end Abs.SameId

/-- Every slot holds the same process with the same parent. -/
structure Abs.SameIds (a a' : Abs) : Prop where
  nextpid_eq : a'.env.nextpid = a.env.nextpid
  initproc_eq : a'.env.initproc = a.env.initproc
  same : ∀ p, a.SameId a' p
  parent_eq : ∀ p, (a'.task p).parent = (a.task p).parent

/-- `s'` represents a state that satisfies the invariant and has the processes of
`a`. -/
def Leads (hit : Prop) (a : Abs) (s' : Sched) : Prop :=
  ∃ a', Sim s' a' ∧ Inv hit a' ∧ a.SameIds a'

namespace Abs.SameIds

theorem refl (a : Abs) : a.SameIds a := ⟨rfl, rfl, fun _ => .of_eq rfl, fun _ => rfl⟩

theorem trans {a b d : Abs} (h : a.SameIds b) (h' : b.SameIds d) : a.SameIds d :=
  ⟨h'.nextpid_eq.trans h.nextpid_eq, h'.initproc_eq.trans h.initproc_eq,
    fun p => (h.same p).trans (h'.same p), fun p => (h'.parent_eq p).trans (h.parent_eq p)⟩

/-- Only the slot `p` changes, and keeps its process. -/
theorem of_one {a a' : Abs} (p : PId) (hnext : a'.env.nextpid = a.env.nextpid)
    (hinit : a'.env.initproc = a.env.initproc) (hother : ∀ p', p' ≠ p → a'.task p' = a.task p')
    (hp : a.SameId a' p) (hpar : (a'.task p).parent = (a.task p).parent) : a.SameIds a' where
  nextpid_eq := hnext
  initproc_eq := hinit
  same p' := by
    by_cases e : p' = p
    · exact e ▸ hp
    · exact .of_eq (hother p' e)
  parent_eq p' := by
    by_cases e : p' = p
    · exact e ▸ hpar
    · rw [hother p' e]

/-- Only the process in the slot `p` changes, which is neither free nor ended
before and after. -/
theorem of_live {a a' : Abs} (p : PId) (hnext : a'.env.nextpid = a.env.nextpid)
    (hinit : a'.env.initproc = a.env.initproc) (hother : ∀ p', p' ≠ p → a'.task p' = a.task p')
    (hpid : (a'.task p).pid = (a.task p).pid) (hpar : (a'.task p).parent = (a.task p).parent)
    (h : (a.task p).state.Live) (h' : (a'.task p).state.Live) : a.SameIds a' :=
  .of_one p hnext hinit hother (.of_live hpid h h') hpar

end Abs.SameIds

/-- The slot `allocproc` finds. -/
def Abs.freeSlot (a : Abs) : Option PId :=
  (List.finRange NPROC).find? fun p => (a.task p).state = .unused

/-- The slot `wait` reaps. -/
def Abs.zombieChild (a : Abs) (p : PId) : Option PId :=
  (List.finRange NPROC).find? fun x =>
    decide ((a.task x).parent = some p) && decide ((a.task x).state = .zombie)

/-- `a'` is `a` with the slot `np` handed out for a child of `parent`, and given
back at once unless `made`. -/
structure Abs.Allocated (a a' : Abs) (np : PId) (parent : Option PId) (made : Bool) : Prop where
  unused : (a.task np).state = .unused
  nextpid_eq : a'.env.nextpid = a.env.nextpid + 1
  pid_eq : (a'.task np).pid = a.env.nextpid
  killed_eq : (a'.task np).killed = (a.task np).killed
  outcome : if made then (a'.task np).state = .runnable ∧ (a'.task np).parent = parent
    else (a'.task np).state = .unused ∧ (a'.task np).parent = (a.task np).parent
  same : ∀ p, p ≠ np → a.SameId a' p
  parent_eq : ∀ p, p ≠ np → (a'.task p).parent = (a.task p).parent

/-- `a'` is `a` with the slot `p` freed. -/
structure Abs.Freed (a a' : Abs) (p : PId) : Prop where
  nextpid_eq : a'.env.nextpid = a.env.nextpid
  initproc_eq : a'.env.initproc = a.env.initproc
  unused : (a'.task p).state = .unused
  clean : (a'.task p).pid = 0 ∧ (a'.task p).killed = false ∧ (a'.task p).parent = none
  same : ∀ p', p' ≠ p → a.SameId a' p'
  parent_eq : ∀ p', p' ≠ p → (a'.task p').parent = (a.task p').parent

/-- `a'` is `a` after the process `p` has ended and its children have been passed
to `init`. -/
structure Abs.Ended (a a' : Abs) (p : PId) : Prop where
  not_init : a.env.initproc ≠ some p
  initproc_eq : a'.env.initproc = a.env.initproc
  nextpid_eq : a'.env.nextpid = (a'.task p).pid
  pid_eq : (a'.task p).pid = (a.task p).pid
  zombie : (a'.task p).state = .zombie
  killed : (a'.task p).killed = true
  same : ∀ p', p' ≠ p → a.SameId a' p'
  parent_eq : ∀ p', (a'.task p').parent =
    if (a.task p').parent = some p then a.env.initproc else (a.task p').parent

/-! ## Giving up the CPU -/

section

variable (h : Sim s a) (hi : Inv hit a) (hp : a.env.runningOn c = some p)

include h hi hp

theorem Sim.list_run : a.list (.run c) = [p] := hi.list_run (h.wf _).linked.nodup hp

/-- `yield` returns, and moves its process to `readyqueue`. -/
theorem yield_leads : ∃ s', yield c p s = (.ok (), s') ∧ Leads hit a s' := by
  have hl := h.list_run hi hp
  have hu := hi.running_unclaimed hp
  have hcurr := hi.curr_eq (p := p) (q := .run c) (by simp [hl])
  have h1 := h.setTask p fun t => { t with state := .runnable }
  have hpurge := h1.purge_runnable (q := .run c) hl (by simp)
  obtain ⟨s2, hs2, h2⟩ := h1.sched_runnable (c := c) .inYield (by simp) (by simp [hu])
    (by simp [hu]) (by simp [hcurr]) hl
  have hrun := (hi.running_iff p).mpr ⟨c, hp⟩
  refine ⟨s2, by simp [yield, bind_of_ok hpurge, hs2], _, h2, ?_⟩
  have hleave : Leaves hit a c p
      ((a.setTask p fun t => { t with state := .runnable }).remove p (.run c)) :=
    .remove hl (fun p' hne => by rw [Abs.setTask_task, if_neg hne]) rfl (fun _ => rfl)
      (by simpa using hu)
  have hd := hleave.departs (q := .ready) .inYield
    (by simp [Abs.remove, Task.unclaimed, hu.1, RestState])
  refine ⟨hd.inv hi hp (by simp), .of_live p rfl rfl hd.task_eq ?_ ?_
    (by simp [hrun, ProcState.Live]) ?_⟩
  all_goals simp [Abs.switchOut, Abs.insert, Abs.remove, Task.unclaimed, hu.1, ProcState.Live]

/-- `preempt` returns, and moves its process to `readyqueue` with the lowest
priority. -/
theorem preempt_leads : ∃ s', preempt c p s = (.ok (), s') ∧ Leads hit a s' := by
  have hl := h.list_run hi hp
  have hu := hi.running_unclaimed hp
  have h1 := h.setTask p fun t => { t with state := .preempted }
  obtain ⟨s2, hs2, h2⟩ := h1.purge_preempted hl (by simp)
  have hleave : Leaves hit a c p
      ((a.setTask p fun t => { t with state := .preempted }).remove p (.run c)) :=
    .remove hl (fun p' hne => by rw [Abs.setTask_task, if_neg hne]) rfl (fun _ => rfl)
      (by simpa using hu)
  have hu2 := hleave.unclaimed
  obtain ⟨s3, hs3, h3⟩ := h2.sched_preempted (c := c) .inYield
    (by simp [Abs.remove, Task.unclaimed, hu.1]) hu2.2.1
    (hleave.unlinked h.disjoint (by simp [hl]))
  refine ⟨s3, by simp [preempt, bind_of_ok hs2, hs3], _, h3, ?_⟩
  have hleave' := hleave.setTask (f := fun t => { t with
    pPri := LOW_USER_PRIORITY, state := .runnable, curr := none }) hu2
  have hrun := (hi.running_iff p).mpr ⟨c, hp⟩
  have hd := hleave'.departs (q := .ready) .inYield (by simp [RestState])
  refine ⟨hd.inv hi hp (by simp), .of_live p rfl rfl hd.task_eq ?_ ?_
    (by simp [hrun, ProcState.Live]) ?_⟩
  all_goals simp [Abs.switchOut, Abs.insert, Abs.remove, Task.unclaimed, hu.1, ProcState.Live]

/-- `sleep` returns, and moves its process to `sleepqueue`. -/
theorem sleep_leads (chan : Chan) : ∃ s', sleep c p chan s = (.ok (), s') ∧ Leads hit a s' := by
  have hl := h.list_run hi hp
  have hu := hi.running_unclaimed hp
  have hcurr := hi.curr_eq (p := p) (q := .run c) (by simp [hl])
  have h1 := h.setTask p fun t => { t with chan := chan, state := .sleeping }
  obtain ⟨s2, hs2, h2⟩ := h1.leaveQueue hl (by simp) (by simp [hu]) (by simp [hcurr])
  have hleave : Leaves hit a c p
      ((a.setTask p fun t => { t with chan := chan, state := .sleeping }).remove p (.run c)) :=
    .remove hl (fun p' hne => by rw [Abs.setTask_task, if_neg hne]) rfl (fun _ => rfl)
      (by simpa using hu)
  have ht : ((a.setTask p fun t => { t with chan := chan, state := .sleeping }).remove p
      (.run c)).task p = { a.task p with chan := chan, state := .sleeping } := by
    simp [Abs.remove, Task.unclaimed, hu.1]
  obtain ⟨s3, hs3, h3⟩ := h2.insert (q := .sleep) (hleave.unlinked h.disjoint (by simp [hl]))
    (by simp [ht]) (by simp [ht, hcurr]) (fun c hc => by cases hc)
  obtain ⟨s4, hs4, h4⟩ := h3.sched_quiet (c := c) (p := p) .inSleep
    (.inl (by simp [Abs.insert, ht])) (by simp [Abs.insert, ht, hu])
  refine ⟨s4, by simp [sleep, bind_of_ok hs2, bind_of_ok hs3, hs4], _, h4, ?_⟩
  have hrun := (hi.running_iff p).mpr ⟨c, hp⟩
  have hd := hleave.departs (q := .sleep) .inSleep (by simp [ht, RestState])
  refine ⟨hd.inv hi hp (by simp), .of_live p rfl rfl hd.task_eq ?_ ?_
    (by simp [hrun, ProcState.Live]) ?_⟩
  all_goals simp [Abs.switchOut, Abs.insert, ht, ProcState.Live]

end

/-! ## Waking and ending -/

/-- A `wakeup1` that returns keeps the invariant, and what every CPU executes. -/
theorem wakeup1_inv (h : Sim s a) (hi : Inv hit a) {chan : Chan}
    (hs : wakeup1 chan s = (.ok (), s')) : ∃ a', Sim s' a' ∧ Inv hit a' ∧ a'.env = a.env ∧
    a.SameIds a' := by
  have hw := wakeup1_refines h hi chan
  split at hw
  · rw [hw] at hs
    cases hs
    exact ⟨a, h, hi, rfl, .refl a⟩
  · next p hp =>
    split at hw
    · next hst =>
      obtain ⟨s1, h1, heq⟩ := hw
      rw [heq] at hs
      obtain rfl : s1 = s' := (Prod.mk.inj hs).2
      refine ⟨a.wake p, h1, hi.wake h hst, rfl, .of_live p rfl rfl (fun p' e => ?_) ?_ ?_
        (by simp [hst, ProcState.Live]) ?_⟩
      · rw [Abs.wake_task hi hst, if_neg e]
      all_goals simp [Abs.wake_task hi hst, ProcState.Live]
    · rw [hw] at hs
      cases hs

/-- The loop of `exit` passes every child it meets to `init`. -/
theorem reparent_inv {l : List PId} (h : Sim s a) (hi : Inv hit a)
    (hinit : a.env.initproc ≠ some p) (hs : l.forM (reparent p) s = (.ok (), s')) :
    ∃ a', Sim s' a' ∧ Inv hit a' ∧ a'.env = a.env ∧ (∀ x, a.SameId a' x) ∧
      ∀ x, (a'.task x).parent = if x ∈ l ∧ (a.task x).parent = some p then a.env.initproc
        else (a.task x).parent := by
  induction l generalizing s a with
  | nil =>
    cases hs
    exact ⟨a, h, hi, rfl, fun _ => .of_eq rfl, by simp⟩
  | cons x l ih =>
    obtain ⟨_, s1, hx, hl⟩ := bind_eq_ok hs
    suffices ∃ a1, Sim s1 a1 ∧ Inv hit a1 ∧ a1.env = a.env ∧ (∀ y, a.SameId a1 y) ∧
        ∀ y, (a1.task y).parent = if y = x ∧ (a.task y).parent = some p then a.env.initproc
          else (a.task y).parent by
      obtain ⟨a1, h1, hi1, he1, hid1, hpar1⟩ := this
      obtain ⟨a', h', hi', he', hid', hpar'⟩ := ih h1 hi1 (by rwa [he1]) hl
      refine ⟨a', h', hi', he'.trans he1, fun y => (hid1 y).trans (hid' y), fun y => ?_⟩
      rw [hpar', hpar1, he1]
      by_cases ey : (a.task y).parent = some p
      · rcases eq_or_ne y x with rfl | e
        · simp [ey, hinit]
        · simp [e, ey]
      · simp [ey]
    have henv := h.env_eq
    by_cases hpar : (s.proc x).parent = some p
    · simp only [reparent, bind_gets, hpar, if_true, bind_update] at hx
      obtain ⟨a1, h1, hi1, he1, hid1⟩ := wakeup1_inv
        (h.setTask x fun t => { t with parent := s.initproc }) (hi.setTask rfl rfl rfl rfl rfl) hx
      refine ⟨a1, h1, hi1, he1, fun y => .trans ?_ (hid1.same y), fun y => ?_⟩
      · constructor <;> (rw [Abs.setTask_task]; split <;> simp_all)
      · rw [hid1.parent_eq, Abs.setTask_task]
        by_cases e : y = x
        · subst e
          rw [h.task_eq] at hpar
          simp [hpar, ← henv]
        · simp [e]
    · simp [reparent, hpar] at hx
      refine ⟨a, hx ▸ h, hi, rfl, fun _ => .of_eq rfl, fun y => ?_⟩
      rw [if_neg]
      rintro ⟨rfl, hy⟩
      rw [h.task_eq] at hpar
      exact hpar hy

/-- The stores of `exit` between the wake-ups and the last switch. -/
def Sched.endProc (s : Sched) (p : PId) : Sched :=
  let s := s.setProc p fun x => { x with state := .zombie, killed := true }
  { s with
    nextpid := (s.proc p).pid
    cAvg := s.cAvg.add (s.proc p).pCpuUsage.toUInt32 }

theorem Sim.endProc (h : Sim s a) (p : PId) : ∃ b : Abs, Sim (s.endProc p) b ∧
    b.task p = { a.task p with state := .zombie, killed := true } ∧
    (∀ p', p' ≠ p → b.task p' = a.task p') ∧ b.list = a.list ∧
    (∀ c, b.env.runningOn c = a.env.runningOn c) ∧ b.env.nextpid = (a.task p).pid ∧
    b.env.initproc = a.env.initproc := by
  refine ⟨_, (h.setTask p fun t => { t with state := .zombie, killed := true }).setEnv _, ?_, ?_,
    rfl, ?_, ?_, ?_⟩
  · simp
  · exact fun p' hne => by rw [Abs.setTask_task, if_neg hne]
  · intro c
    rw [← h.env_eq]
    rfl
  · rw [← h.task_eq]
    simp
  · rw [← h.env_eq]
    rfl

/-- An `exit` that returns to the scheduler leaves a zombie whose pid is the next
one to be given out. -/
theorem exit_leads (h : Sim s a) (hi : Inv hit a) (hp : a.env.runningOn c = some p)
    (hs : exit c p s = (.ok (), s')) : ∃ a', Sim s' a' ∧ Inv hit a' ∧ a.Ended a' p := by
  by_cases hinit : s.initproc = some p
  · simp [exit, hinit] at hs
  simp only [exit, bind_gets, hinit, if_false] at hs
  obtain ⟨_, s1, hw, hs⟩ := bind_eq_ok hs
  obtain ⟨_, s2, hr, hs⟩ := bind_eq_ok hs
  rw [h.env_eq] at hinit
  obtain ⟨a1, h1, hi1, he1, hid1⟩ := wakeup1_inv h hi hw
  obtain ⟨a2, h2, hi2, he2, hid2, hpar2⟩ := reparent_inv h1 hi1 (by rwa [he1]) hr
  have hp2 : a2.env.runningOn c = some p := by rw [he2, he1]; exact hp
  have hl := h2.list_run hi2 hp2
  have hu := hi2.running_unclaimed hp2
  have hcurr := hi2.curr_eq (p := p) (q := .run c) (by simp [hl])
  simp only [bind_update] at hs
  obtain ⟨_, s3, hleave, hs⟩ := bind_eq_ok hs
  obtain ⟨b, h3, htask, hother, hlist, hrun, hnext, hinit'⟩ := h2.endProc p
  obtain ⟨s4, hs4, h4⟩ := h3.leaveQueue (c := c) (p := p) (by rw [hlist]; exact hl)
    (by simp [htask]) (by simp [htask, hu]) (by simp [htask, hcurr])
  obtain rfl : s4 = s3 := (Prod.mk.inj (hs4.symm.trans hleave)).2
  have hgone : Leaves hit a2 c p (b.remove p (.run c)) :=
    .remove hl hother hlist hrun (by simpa [htask] using hu)
  have hst : ((b.remove p (.run c)).task p).state = .zombie := by
    simp [Abs.remove, Task.unclaimed, htask, hu.1]
  obtain ⟨s5, hs5, h5⟩ := h4.sched_quiet (c := c) (p := p) .inExit (.inr hst) hgone.unclaimed.2.1
  obtain rfl : s5 = s' := (Prod.mk.inj (hs5.symm.trans hs)).2
  have hd := hgone.departs_none .inExit hst
  have hpid : ((b.remove p (.run c)).switchOut c p .inExit).task p = { a2.task p with
      state := .zombie, killed := true, context := .inExit } := by
    simp [Abs.switchOut, Abs.remove, Task.unclaimed, htask, hu.1]
  refine ⟨_, h5, hd.inv hi2 hp2 (by simp), hinit, ?_, ?_, ?_, ?_, ?_, fun p' e => ?_, fun p' => ?_⟩
  · exact hinit'.trans (by rw [he2, he1])
  · exact hnext.trans (by rw [hpid])
  · rw [hpid]
    exact (hid2 p).pid_eq.trans (hid1.same p).pid_eq
  · rw [hpid]
  · rw [hpid]
  · exact ((hid1.same p').trans (hid2 p')).trans (.of_eq (hd.task_eq p' e))
  · have hp' : (((b.remove p (.run c)).switchOut c p .inExit).task p').parent =
        (a2.task p').parent := by
      by_cases e : p' = p
      · rw [e, hpid]
      · rw [hd.task_eq p' e]
    rw [hp', hpar2, hid1.parent_eq, he1]
    simp

theorem Sim.zombieChild_eq (h : Sim s a) :
    ((List.finRange NPROC).find? fun x =>
      decide ((s.proc x).parent = some p) && decide ((s.proc x).state = .zombie)) =
      a.zombieChild p := by
  simp only [Abs.zombieChild, h.task_eq]

/-- A round of `wait` returns: it frees a zombie, gives up, or sleeps. -/
theorem wait_leads (h : Sim s a) (hi : Inv hit a) (hp : a.env.runningOn c = some p) :
    ∃ r s', wait c p s = (.ok r, s') ∧ ∃ a', Sim s' a' ∧ Inv hit a' ∧
      match a.zombieChild p with
      | none => a.SameIds a'
      | some x => a.Freed a' x := by
  rw [← h.zombieChild_eq]
  rcases hx : (List.finRange NPROC).find? fun x =>
      decide ((s.proc x).parent = some p) && decide ((s.proc x).state = .zombie) with _ | x
  · by_cases hgive : (!(List.finRange NPROC).any fun x => decide ((s.proc x).parent = some p)) ||
        (s.proc p).killed
    · exact ⟨none, s, by simp only [wait, bind_gets, hx, hgive, if_true, pure_apply], a, h, hi,
        .refl a⟩
    · obtain ⟨s', hs', a', h', hi', hid⟩ := sleep_leads h hi hp (.proc p)
      refine ⟨none, s', ?_, a', h', hi', hid⟩
      simp only [wait, bind_gets, hx, if_neg hgive, bind_of_ok hs', pure_apply]
  · have hz : (a.task x).state = .zombie := by
      have := List.find?_some hx
      rw [Bool.and_eq_true, decide_eq_true_eq, decide_eq_true_eq, h.task_eq] at this
      exact this.2
    have hother : ∀ p', p' ≠ x → (a.setTask x fun t => { t with
        pid := 0, parent := none, killed := false, state := .unused }).task p' = a.task p' :=
      fun p' hne => by rw [Abs.setTask_task, if_neg hne]
    exact ⟨some (s.proc x).pid, _, by simp only [wait, bind_gets, hx, bind_update, pure_apply],
      _, h.setTask x fun t => { t with
        pid := 0, parent := none, killed := false, state := .unused },
      hi.free (.inr hz) hother rfl (fun _ => rfl) (by simp),
      ⟨rfl, rfl, by simp, by simp, fun p' hne => .of_eq (hother p' hne),
        fun p' hne => by rw [hother p' hne]⟩⟩

/-! ## Creating processes -/

theorem Sim.freeSlot_eq (h : Sim s a) :
    ((List.finRange NPROC).find? fun p => (s.proc p).state = .unused) = a.freeSlot := by
  simp only [Abs.freeSlot, h.task_eq]

theorem Abs.freeSlot_unused {np : PId} (h : a.freeSlot = some np) :
    (a.task np).state = .unused := by
  simpa using List.find?_some h

/-- With no free slot `allocproc` changes nothing. -/
theorem allocproc_full (h : Sim s a) (hnp : a.freeSlot = none) (kalloc : Bool) :
    allocproc kalloc s = (.ok none, s) := by
  rw [← h.freeSlot_eq] at hnp
  simp [allocproc, hnp]

/-- `allocproc` changes the first free slot, and `nextpid`. -/
theorem allocproc_sim {np : PId} (h : Sim s a) (hnp : a.freeSlot = some np) (kalloc : Bool) :
    ∃ s' b, allocproc kalloc s = (.ok (if kalloc then some np else none), s') ∧
      Sim s' b ∧ b.list = a.list ∧ (∀ c, b.env.runningOn c = a.env.runningOn c) ∧
      b.env.initproc = a.env.initproc ∧ b.env.nextpid = a.env.nextpid + 1 ∧
      (b.task np = if kalloc then
          { a.task np with state := .embryo, pid := a.env.nextpid, context := .forkret }
        else { a.task np with pid := a.env.nextpid }) ∧
      ∀ p', p' ≠ np → b.task p' = a.task p' := by
  have hst := Abs.freeSlot_unused hnp
  have hfind := hnp
  rw [← h.freeSlot_eq] at hfind
  have h1 := (h.setTask np fun t => { t with state := .embryo, pid := s.nextpid }).setEnv
    { s.toEnv with nextpid := s.nextpid + 1 }
  have henv := h.env_eq
  have hrun : ∀ c, ({ s.toEnv with nextpid := s.nextpid + 1 } : Env).runningOn c =
      a.env.runningOn c := fun c => by rw [← henv]; rfl
  cases kalloc with
  | true =>
    refine ⟨_, _, by simp [allocproc, hfind], h1.setTask np fun t => { t with context := .forkret },
      rfl, hrun, by rw [← henv]; rfl, by rw [← henv]; rfl, by simp [henv], fun p' hne => ?_⟩
    rw [Abs.setTask_task, if_neg hne, Abs.setTask_task, if_neg hne]
  | false =>
    refine ⟨_, _, by simp [allocproc, hfind], h1.setTask np fun t => { t with state := .unused },
      rfl, hrun, by rw [← henv]; rfl, by rw [← henv]; rfl, by simp [henv, ← hst], fun p' hne => ?_⟩
    rw [Abs.setTask_task, if_neg hne, Abs.setTask_task, if_neg hne]

/-- `fork` returns; a child starts in `readyqueue`. -/
theorem fork_leads (h : Sim s a) (hi : Inv hit a) (hp : a.env.runningOn c = some p)
    (kalloc copyuvm : Bool) : ∃ r s', fork p kalloc copyuvm s = (.ok r, s') ∧
      ∃ a', Sim s' a' ∧ Inv hit a' ∧ a'.env.initproc = a.env.initproc ∧
        match a.freeSlot with
        | none => a.SameIds a'
        | some np => a.Allocated a' np (some p) (kalloc && copyuvm) := by
  rcases hnp : a.freeSlot with _ | np
  · exact ⟨none, s, by simp [fork, bind_of_ok (allocproc_full h hnp kalloc)], a, h, hi,
      rfl, .refl a⟩
  have hst := Abs.freeSlot_unused hnp
  obtain ⟨s1, b, halloc, h1, hlist, hrun, hinit, hnext, htask, hother⟩ := allocproc_sim h hnp kalloc
  cases kalloc with
  | false =>
    simp only [Bool.false_eq_true, if_false] at halloc htask
    refine ⟨none, s1, by simp [fork, bind_of_ok halloc], b, h1,
      hi.free (.inl hst) hother hlist hrun (by simp [htask, hst]), hinit, hst,
      hnext, by simp [htask], by simp [htask], ?_, fun p' e => .of_eq (hother p' e),
      fun p' e => by rw [hother p' e]⟩
    simp [htask, hst]
  | true =>
    simp only [if_true] at halloc htask
    cases copyuvm with
    | false =>
      have hother' : ∀ p', p' ≠ np → (b.setTask np fun t => { t with state := .unused }).task p' =
          a.task p' := fun p' hne => by rw [Abs.setTask_task, if_neg hne]; exact hother p' hne
      refine ⟨none, _, by simp [fork, bind_of_ok halloc],
        _, h1.setTask np fun t => { t with state := .unused },
        hi.free (.inl hst) hother' hlist hrun (by simp), hinit, hst, hnext, by simp [htask],
        by simp [htask], ?_, fun p' e => .of_eq (hother' p' e), fun p' e => by rw [hother' p' e]⟩
      simp [htask]
    | true =>
      have hne : p ≠ np := by
        rintro rfl
        have := (hi.running_iff p).mpr ⟨c, hp⟩
        rw [hst] at this
        cases this
      have hun : b.Unlinked np := by
        intro q hm
        rw [hlist] at hm
        exact hi.unlinked_of_idle (.inl hst) q hm
      have h2 := (h1.setTask np fun t => { t with
        parent := some p, pFlag := 0, inQueue := false, pPri := childPri (s1.proc p).toTask
        pCpuUsage := 0, pTimeQuantum := (s1.proc p).pCpuUsage / 2 }).setTask p fun t => { t with
          pTimeQuantum := t.pTimeQuantum - (s1.proc p).pCpuUsage / 2 }
      have h3 := (h2.setProc_unlinked (p := np) hun
        (f := fun x => { x with
          pIgn := 0, pSig := 0, next := none, prev := none, currCpu := none, curr := none })
        (g := fun t => { t with pIgn := 0, pSig := 0, currCpu := none, curr := none })
        fun _ => rfl).setTask np fun t => { t with state := .runnable }
      obtain ⟨s4, hs4, h4⟩ := h3.insert (p := np) (q := .ready) hun (by simp) (by simp)
        (fun c hc => by cases hc)
      refine ⟨some (s4.proc np).pid, s4, ?_, _, h4, ?_⟩
      · simp only [fork, bind_of_ok halloc, if_true, bind_gets, bind_update]
        exact (bind_of_ok hs4).trans rfl
      · have hi' : Inv hit (a.setTask p fun t => { t with
            pTimeQuantum := t.pTimeQuantum - (s1.proc p).pCpuUsage / 2 }) :=
          hi.setTask rfl rfl rfl rfl rfl
        refine ⟨hi'.enter (p := np) (.inl ?_) (fun p' hne' => ?_) hlist hrun
          (by simp) ?_, hinit, hst, hnext, ?_, ?_, ?_, fun p' e => ?_, fun p' e => ?_⟩
        · rw [Abs.setTask_task, if_neg (Ne.symm hne)]; exact hst
        · simp only [Abs.setTask_task, if_neg hne', if_neg hne, hother p hne, hother p' hne']
        · simp [Task.NoClaim, Abs.setTask_task, Ne.symm hne]
        · simp [Abs.insert, Abs.setTask_task, Ne.symm hne, htask]
        · simp [Abs.insert, Abs.setTask_task, Ne.symm hne, htask]
        · simp [Abs.insert, Abs.setTask_task, Ne.symm hne]
        · by_cases ep : p' = p
          · subst ep
            constructor <;> simp [Abs.insert, Abs.setTask_task, e, hother p' e]
          · exact .of_eq (by simp [Abs.insert, Abs.setTask_task, e, ep, hother p' e])
        · by_cases ep : p' = p
          · subst ep
            simp [Abs.insert, Abs.setTask_task, e, hother p' e]
          · simp [Abs.insert, Abs.setTask_task, e, ep, hother p' e]

/-! ## The scheduler loop -/

/-- Nothing is ever migrated: run queues have no tail. -/
theorem doBalance_ok (h : Sim s a) (mask : CpuId → Bool) : doBalance mask s = (.ok (), s) := by
  have hloop : ∀ l : List CpuId, l.forM (balanceOne mask) s = (.ok (), s) := by
    intro l
    induction l with
    | nil => rfl
    | cons c l ih =>
      have hc : balanceOne mask c s = (.ok (), s) := by
        by_cases hm : mask c
        · simp [balanceOne, hm, h.runTail c]
        · simp [balanceOne, hm]
      exact (bind_of_ok hc).trans ih
  rw [doBalance, bind_gets]
  exact hloop _

/-- The pick-up of `p` by CPU `c`, and the switch to it. -/
def Abs.pickUp (a : Abs) (c : CpuId) (p : PId) : Abs :=
  ((a.setTask p fun t => { t with inQueue := true, currCpu := some c }).remove p .ready).insert p
    (.run c)

/-- The part of `pickUp` behind the handling of signals. -/
theorem Sim.claim (h : Sim s a) (hi : Inv hit a) (hm : p ∈ a.list .ready)
    (hc : a.list (.run c) = []) : ∃ s', (do
      if (← gets fun s => (s.proc p).curr) = some .ready then
        if (← claimProc p c) then
          removeProcFromQueue p (some .ready)
          insertProcIntoQueue p (some (.run c)) : SchedM Unit) s = (.ok (), s') ∧
      Sim s' (a.pickUp c p) := by
  have hst := hi.runnable hm
  have hu := hi.unclaimed (p := p) (by simp [hst])
  have hcurr := hi.curr_eq hm
  have h1 := h.setTask p fun t => { t with inQueue := true, currCpu := some c }
  obtain ⟨s2, hs2, h2⟩ := h1.remove (p := p) (q := .ready) hm (by simp [hst])
    (fun c hc => by cases hc)
  obtain ⟨s3, hs3, h3⟩ := h2.insert (p := p) (q := .run c) (h1.unlinked_remove hm)
    (by simp [Abs.remove, Task.unclaimed, hst]) (by simp [Abs.remove, Task.unclaimed])
    (fun c' hc' => by simp [Abs.remove, Abs.setList_list, hc])
  refine ⟨s3, ?_, h3⟩
  rw [← h.task_eq] at hcurr hu
  have hclaim := claimProc_ok (c := c) h.checkUnlocked hu.1
  simp [hcurr, bind_of_ok hclaim]
  exact (bind_of_ok hs2).trans hs3

/-- `handle_signals` changes `killed` and `p_sig` only. -/
theorem handleSignals_ok (hs : handleSignals p s = (.ok (), s')) : ∃ k g,
    s' = s.setProc p fun x => { x with killed := k, pSig := g } := by
  refine ⟨(s'.proc p).killed, (s'.proc p).pSig, ?_⟩
  simp only [handleSignals, bind_gets] at hs
  split at hs <;> split at hs <;> (try split at hs) <;> (try split at hs) <;>
    simp only [bind_update, bind_halt, update_apply] at hs <;> cases hs
  all_goals simp [Sched.setProc]

/-- `killed` and `p_sig` of a process that was hit are free to change. -/
theorem Inv.setSig (hi : Inv hit a) {k : Bool} {g : BitVec 32} (hg : ¬hit → g = (a.task p).pSig) :
    Inv hit (a.setTask p fun t => { t with killed := k, pSig := g }) := by
  obtain ⟨dest, hr⟩ := hi p
  refine hi.move p dest (fun p' e => by rw [Abs.setTask_task, if_neg e]) (fun _ _ _ => Iff.rfl)
    (fun _ _ _ => Iff.rfl) ⟨hr.mem_iff, hr.runningOn_iff, ?_, ?_, ?_⟩
  · rw [Abs.setTask_task_self]; exact hr.state
  · rw [Abs.setTask_task_self]; exact hr.curr_eq
  · rw [Abs.setTask_task_self]
    exact fun hu => ⟨(hr.unclaimed hu).1, (hr.unclaimed hu).2.1,
      fun hn => (hg hn).trans ((hr.unclaimed hu).2.2 hn)⟩

/-- A pick-up moves the head of `readyqueue`; a pending signal may have changed its
`killed` and `p_sig`. -/
theorem Sim.pickUp (h : Sim s a) (hi : Inv hit a) {l : List PId} (hl : a.list .ready = p :: l)
    (hc : a.list (.run c) = []) (hs : pickUp c s = (.ok (), s')) : ∃ k g,
      (¬hit → g = (a.task p).pSig) ∧
      Sim s' ((a.setTask p fun t => { t with killed := k, pSig := g }).pickUp c p) := by
  have hm : p ∈ a.list .ready := by simp [hl]
  have hhead : (s.queue .ready).head = some p := by rw [(h.wf .ready).head_eq, hl]; rfl
  have hu := hi.unclaimed (p := p) (by simp [hi.runnable hm])
  simp only [Xv6Rework.pickUp, bind_gets, hhead] at hs
  by_cases hsig : (s.proc p).pSig = 0
  · have hself : (a.setTask p fun t =>
      { t with killed := (a.task p).killed, pSig := (a.task p).pSig }) =
        a := by simp [Abs.setTask]
    obtain ⟨s1, hs1, h1⟩ := h.claim hi hm hc
    rw [if_neg (by simpa using hsig), hs1] at hs
    obtain rfl : s1 = s' := (Prod.mk.inj hs).2
    exact ⟨_, _, fun _ => rfl, hself.symm ▸ h1⟩
  · -- a signal is pending, so the process was hit
    have hhit : hit := by
      by_contra hn
      exact hsig (by rw [h.task_eq]; exact hu.2.2 hn)
    rw [if_pos hsig] at hs
    obtain ⟨_, s1, hs1, hs⟩ := bind_eq_ok hs
    obtain ⟨k, g, rfl⟩ := handleSignals_ok hs1
    have h1 := h.setTask p fun t => { t with killed := k, pSig := g }
    obtain ⟨s2, hs2, h2⟩ := h1.claim (hi.setSig fun hn => absurd hhit hn) hm hc
    obtain rfl : s2 = s' := (Prod.mk.inj (hs2.symm.trans hs)).2
    exact ⟨k, g, fun hn => absurd hhit hn, h2⟩

/-- `p` executes on CPU `c`. -/
def Abs.dispatch (a : Abs) (c : CpuId) (p : PId) : Abs :=
  { a.setTask p fun t => { t with state := .running } with
    env := a.env.setCpu c fun _ => ⟨.executing, some p⟩ }

theorem Inv.dispatch (h : Sim s a) (hi : Inv hit a) (hp : p ∈ a.list .ready)
    (hn : c.val < a.env.ncpu) (hc : a.env.runningOn c = none) :
    Inv hit ((a.pickUp c p).dispatch c p) := by
  have hst := hi.runnable hp
  have hu := hi.unclaimed (p := p) (by simp [hst])
  obtain ⟨dest, hr⟩ := hi p
  have hdest : dest = some .ready := (hr.mem_iff _).mp hp
  have hmem : ∀ q p', p' ∈ ((a.pickUp c p).dispatch c p).list q ↔
      (p' ∈ a.list q ∧ ¬(q = .ready ∧ p' = p)) ∨ (q = .run c ∧ p' = p) := fun q p' => by
    rw [show ((a.pickUp c p).dispatch c p).list = (a.pickUp c p).list from rfl, Abs.pickUp,
      Abs.mem_insert, Abs.mem_remove (by exact (h.wf .ready).linked.nodup), Abs.setTask_list]
  have hrun : ∀ c', ((a.pickUp c p).dispatch c p).env.runningOn c' =
      if c' = c then some p else a.env.runningOn c' := fun c' => by
    rw [Abs.dispatch, Env.runningOn_setCpu]
    simp [Abs.pickUp, Abs.insert, Abs.remove, hn]
  have htask : ((a.pickUp c p).dispatch c p).task p = { a.task p with
      state := .running, inQueue := false, currCpu := none, curr := some (.run c) } := by
    simp [Abs.dispatch, Abs.pickUp, Abs.insert, Abs.remove, Task.unclaimed]
  refine hi.move p (some (.run c)) (fun p' e => ?_) (fun q p' e => ?_) (fun c' p' e => ?_)
    ⟨fun q => ?_, fun c' => ?_, ?_, fun q hq => ?_, fun _ => ?_⟩
  · simp [Abs.dispatch, Abs.pickUp, Abs.insert, Abs.remove, Abs.setTask_task, e]
  · rw [hmem]; simp [e]
  · rw [hrun]
    split
    · next hc' => subst hc'; simp [hc, Ne.symm e]
    · rfl
  · rw [hmem, hr.mem_iff, hdest]
    constructor
    · rintro (⟨hq, hn⟩ | ⟨hq, -⟩)
      · exact absurd ⟨(Option.some.inj hq).symm, rfl⟩ hn
      · rw [hq]
    · exact fun hq => .inr ⟨(Option.some.inj hq).symm, rfl⟩
  · rw [hrun]
    split
    · next hc' => simp [hc']
    · next hc' =>
      rw [hr.runningOn_iff, hdest]
      simp [Ne.symm hc']
  · rw [htask]; rfl
  · rw [htask]; exact hq
  · rw [htask]; exact ⟨rfl, rfl, hu.2.2⟩

/-- `switchTo` dispatches the only process of the run queue; one that slept
forgets its channel. -/
theorem Sim.switchTo (h : Sim s a) (hl : a.list (.run c) = [p]) :
    ∃ s', switchTo c s = (.ok (), s') ∧ (Sim s' (a.dispatch c p) ∨
      Sim s' ((a.dispatch c p).setTask p fun t => { t with chan := .null })) := by
  have hhead : (s.queue (.run c)).head = some p := by rw [(h.wf _).head_eq, hl]; rfl
  have h1 := (h.setCpu c fun _ => ⟨.executing, some p⟩).setTask p fun t =>
    { t with state := .running }
  by_cases hctx : (s.proc p).context = .inSleep
  · exact ⟨_, by simp [Xv6Rework.switchTo, hhead, hctx], .inr (h1.setTask p _)⟩
  · exact ⟨_, by simp [Xv6Rework.switchTo, hhead, hctx], .inl h1⟩

/-- A round of `scheduler` that returns has a process executing if one was ready. -/
theorem scheduler_leads (h : Sim s a) (hi : Inv hit a) (hn : c.val < a.env.ncpu)
    (hc : a.env.runningOn c = none) (hs : scheduler c s = (.ok (), s')) : Leads hit a s' := by
  have hrun := hi.list_run_nil hc
  have hhead : (s.queue (.run c)).head = none := by rw [(h.wf _).head_eq, hrun]; rfl
  rcases hl : a.list .ready with _ | ⟨p, l⟩
  · have hready : (s.queue .ready).head = none := by rw [(h.wf _).head_eq, hl]; rfl
    have hidle : scheduler c s = (.ok (), s) := by
      simp [scheduler, isQueueEmpty, hready, hhead, queuesNeedBalance, doBalance_ok h]
    obtain rfl : s = s' := (Prod.mk.inj (hidle.symm.trans hs)).2
    exact ⟨a, h, hi, .refl a⟩
  · have hready : (s.queue .ready).head = some p := by rw [(h.wf _).head_eq, hl]; rfl
    have hm : p ∈ a.list .ready := by simp [hl]
    have hst := hi.runnable hm
    simp [scheduler, isQueueEmpty, hready] at hs
    obtain ⟨_, s1, hs1, hs⟩ := bind_eq_ok hs
    obtain ⟨k, g, hg, h1⟩ := h.pickUp hi hl hrun hs1
    set b := a.setTask p fun t => { t with killed := k, pSig := g } with hb
    have hib : Inv hit b := hi.setSig hg
    have hidb : a.SameIds b := .of_live p rfl rfl (fun p' e => by rw [hb,
      Abs.setTask_task, if_neg e]) (by simp [hb]) (by simp [hb]) (by simp [hst, ProcState.Live])
      (by simp [hb, hst, ProcState.Live])
    have hl1 : (b.pickUp c p).list (.run c) = [p] := by
      simp [Abs.pickUp, Abs.insert, Abs.remove, Abs.setList_list, hb, hrun, Abs.place]
    obtain ⟨s2, hs2, h2⟩ := h1.switchTo hl1
    obtain rfl : s2 = s' := (Prod.mk.inj (hs2.symm.trans hs)).2
    have hi2 := Inv.dispatch (h.setTask p fun t => { t with killed := k, pSig := g }) hib hm hn hc
    have hid : b.SameIds ((b.pickUp c p).dispatch c p) := by
      refine .of_live p rfl rfl (fun p' e => ?_) ?_ ?_ (by simp [hb, hst, ProcState.Live]) ?_
      · simp [Abs.dispatch, Abs.pickUp, Abs.insert, Abs.remove, Abs.setTask_task, e]
      all_goals simp [Abs.dispatch, Abs.pickUp, Abs.insert, Abs.remove, Task.unclaimed,
        ProcState.Live]
    rcases h2 with h2 | h2
    · exact ⟨_, h2, hi2, hidb.trans hid⟩
    · refine ⟨_, h2, hi2.setTask rfl rfl rfl rfl rfl, (hidb.trans hid).trans
        (.of_live p rfl rfl (fun p' e => by rw [Abs.setTask_task, if_neg e]) (by simp)
          (by simp) ?_ ?_)⟩
      all_goals simp [Abs.dispatch, ProcState.Live]

/-- On an empty run queue `shift_queue` returns and changes nothing. -/
theorem shiftQueue_nil (h : Sim s a) {q : QId} (hl : a.list q = []) :
    shiftQueue q s = (.ok (), s) := by
  have hhead : (s.queue q).head = none := by rw [(h.wf _).head_eq, hl]; rfl
  have hlock := h.unlocked q
  simp [shiftQueue, hhead, bind_of_ok (acquire_ok hlock), release_ok, Sched.relock_eq hlock]

theorem switchBack_leads (h : Sim s a) (hi : Inv hit a) (hc : a.env.runningOn c = none) :
    ∃ s', switchBack c s = (.ok (), s') ∧ Leads hit a s' := by
  refine ⟨_, by simp [switchBack, bind_of_ok (shiftQueue_nil h (hi.list_run_nil hc))],
    _, h.setCpu c fun _ => ⟨.scheduling, none⟩, hi.setEnv fun c' => ?_,
    ⟨rfl, rfl, fun _ => .of_eq rfl, fun _ => rfl⟩⟩
  rw [Env.runningOn_setCpu]
  split
  · next e => simp [e, hc]
  · rfl

/-! ## Start-up -/

/-- The abstract state in which every slot is free. -/
def Abs.boot (ncpu : Nat) : Abs := ⟨fun _ => Task.zero, fun _ => [], (Sched.boot ncpu).toEnv⟩

theorem Sim.boot (ncpu : Nat) : Sim (Sched.boot ncpu) (Abs.boot ncpu) where
  task_eq _ := rfl
  env_eq := rfl
  wf _ := ⟨.nil, rfl, rfl, rfl⟩
  disjoint _ _ _ h := by simp [Abs.boot] at h
  unlocked _ := rfl
  checkUnlocked := rfl
  runTail _ := rfl

theorem Inv.boot (ncpu : Nat) : Inv hit (Abs.boot ncpu) := fun p => ⟨none, by
  refine ⟨fun q => by simp [Abs.boot], fun c => ?_, .inl rfl, fun q hq => by simp at hq,
    fun h => absurd rfl h⟩
  simp [Abs.boot, Sched.boot, Env.runningOn]⟩

/-- Initialising an empty queue changes nothing. -/
theorem initprocqueue_ok {q : QId} (hq : s.queue q = ⟨false, none, none, 0⟩)
    (hk : s.checkLock = false) : initprocqueue q s = (.ok (), s) := by
  simp only [initprocqueue, update_apply, Sched.setQueue, ← hq, Function.update_eq_self]
  rw [← hk]

theorem initRunqueues_ok (hq : ∀ q, s.queue q = ⟨false, none, none, 0⟩)
    (hk : s.checkLock = false) : initRunqueues s = (.ok (), s) := by
  have hloop : ∀ l : List CpuId, l.forM (fun c => initprocqueue (.run c)) s = (.ok (), s) := by
    intro l
    induction l with
    | nil => rfl
    | cons c l ih => exact (bind_of_ok (initprocqueue_ok (hq _) hk)).trans ih
  rw [initRunqueues, bind_gets]
  split
  · exact initprocqueue_ok (hq _) hk
  · exact hloop _

/-- `userinit` returns, with the first process in `readyqueue`. -/
theorem userinit_leads (hit : Prop) (ncpu : Nat) :
    ∃ s', userinit (Sched.boot ncpu) = (.ok (), s') ∧ ∃ a', Sim s' a' ∧ Inv hit a' ∧
      ∃ np, a'.env.initproc = some np ∧ (Abs.boot ncpu).Allocated a' np none true := by
  have hq : ∀ q, (Sched.boot ncpu).queue q = ⟨false, none, none, 0⟩ := fun _ => rfl
  have hk : (Sched.boot ncpu).checkLock = false := rfl
  have hnp : (Abs.boot ncpu).freeSlot = some ⟨0, by decide⟩ := by
    have : (List.finRange NPROC).find? (fun _ => true) = some ⟨0, by decide⟩ := by decide
    simpa [Abs.freeSlot, Abs.boot, Task.zero] using this
  generalize (⟨0, by decide⟩ : PId) = p at hnp
  have hst := Abs.freeSlot_unused hnp
  obtain ⟨s1, b, halloc, h1, hlist, hrun, hinit, hnext, htask, hother⟩ :=
    allocproc_sim (Sim.boot ncpu) hnp true
  simp only [if_true] at halloc htask
  have hun : b.Unlinked p := fun q => by simp [hlist, Abs.boot]
  have h2 := (((h1.setEnv { s1.toEnv with initproc := some p }).setTask p fun t => { t with
    pTimeQuantum := DEFAULT_USER_TIME_QUANTUM, childSamePri := true, pPri := MED_USER_PRIORITY
    pIgn := 0, pSig := 0 }).setProc_unlinked (p := p) hun
      (f := fun x => { x with
        state := .runnable, next := none, prev := none, inQueue := false, currCpu := none })
      (g := fun t => { t with state := .runnable, inQueue := false, currCpu := none })
      fun _ => rfl)
  obtain ⟨s3, hs3, h3⟩ := h2.insert (p := p) (q := .ready) hun (by simp)
    (by simp [htask, Abs.boot, Task.zero]) (fun c hc => by cases hc)
  refine ⟨s3, ?_, _, h3, ?_⟩
  · rw [userinit, bind_of_ok (initRunqueues_ok hq hk), bind_of_ok (initprocqueue_ok (hq _) hk),
      bind_of_ok (initprocqueue_ok (hq _) hk), bind_of_ok halloc]
    exact hs3
  · refine ⟨(Inv.boot ncpu).enter (p := p) (.inl hst) (fun p' hne => ?_) hlist ?_ (by simp)
      (by simp [Task.NoClaim]), p, rfl, hst, ?_, ?_, ?_, ?_, fun p' e => .of_eq ?_, fun p' e => ?_⟩
    · simp only [Abs.setTask_task, if_neg hne]
      exact hother p' hne
    · exact fun c => (congrArg (Env.runningOn · c) h1.env_eq).trans (hrun c)
    · exact (congrArg Env.nextpid h1.env_eq).trans hnext
    · simp [Abs.insert, htask, Abs.boot]
    · simp [Abs.insert, htask]
    · simp [Abs.insert, htask, Abs.boot, Task.zero]
    · simp [Abs.insert, Abs.setTask_task, e, hother p' e]
    · simp [Abs.insert, Abs.setTask_task, e, hother p' e]

/-! ## The machine -/

theorem myproc_ok (h : s.runningOn c = some p) : myproc c s = (.ok p, s) := by
  simp [myproc, h]

/-- `myproc` returns only on a CPU that executes a process. -/
theorem of_myproc_ok {f : PId → SchedM Unit} (h : (myproc c >>= f) s = (.ok (), s')) :
    ∃ p, s.runningOn c = some p ∧ f p s = (.ok (), s') := by
  rcases hp : s.runningOn c with _ | p
  · simp [myproc, hp, bind_apply] at h
  · rw [bind_of_ok (myproc_ok hp)] at h
    exact ⟨p, rfl, h⟩

theorem of_inMode_ok {m : Mode} {x : SchedM Unit}
    (h : (inMode c m >>= fun _ => x) s = (.ok (), s')) :
    (c.val < s.ncpu ∧ (s.cpu c).mode = m) ∧ x s = (.ok (), s') := by
  by_cases hm : c.val < s.ncpu ∧ (s.cpu c).mode = m
  · have : inMode c m s = (.ok (), s) := by simp [inMode, hm]
    rw [bind_of_ok this] at h
    exact ⟨hm, h⟩
  · simp [inMode, hm, bind_apply] at h

/-- How a step changes which processes there are. -/
def IdsAfter (a a' : Abs) : Act → Prop
  | .fork c kalloc copyuvm => ∃ p, a.env.runningOn c = some p ∧
      a'.env.initproc = a.env.initproc ∧
      match a.freeSlot with
      | none => a.SameIds a'
      | some np => a.Allocated a' np (some p) (kalloc && copyuvm)
  | .wait c => ∃ p, a.env.runningOn c = some p ∧
      match a.zombieChild p with
      | none => a.SameIds a'
      | some x => a.Freed a' x
  | .exit c => ∃ p, a.env.runningOn c = some p ∧ a.Ended a' p
  | _ => a.SameIds a'

/-- What a function is known to lead to holds of the state it did lead to. -/
theorem of_leads {α : Type} {x : SchedM α} {P : Sched → Prop} {r : α}
    (h : ∃ r t, x s = (.ok r, t) ∧ P t) (hx : x s = (.ok r, s')) : P s' := by
  obtain ⟨r', t, ht, hp⟩ := h
  rw [ht] at hx
  exact (Prod.mk.inj hx).2 ▸ hp

/-- Every step of the machine keeps the invariant. -/
theorem Step.spec {act : Act} (hs : Step s act s') (h : Sim s a) (hi : Inv hit a) :
    ∃ a', Sim s' a' ∧ Inv hit a' ∧ IdsAfter a a' act := by
  have henv := h.env_eq
  cases act with
  | schedule c =>
    obtain ⟨⟨hn, hm⟩, hs⟩ := of_inMode_ok hs
    rw [henv] at hn hm
    exact scheduler_leads h hi hn (by simp [Env.runningOn, hm]) hs
  | fork c kalloc copyuvm =>
    obtain ⟨p, hp, hs⟩ := of_myproc_ok hs
    obtain ⟨r, t, hx, hs⟩ := bind_eq_ok hs
    cases hs
    obtain ⟨a', h', hi', hid⟩ := of_leads (fork_leads h hi (henv ▸ hp) kalloc copyuvm) hx
    exact ⟨a', h', hi', p, henv ▸ hp, hid⟩
  | yield c =>
    obtain ⟨p, hp, hs⟩ := of_myproc_ok hs
    exact of_leads ⟨_, yield_leads h hi (henv ▸ hp)⟩ hs
  | preempt c =>
    obtain ⟨p, hp, hs⟩ := of_myproc_ok hs
    exact of_leads ⟨_, preempt_leads h hi (henv ▸ hp)⟩ hs
  | sleep c chan =>
    obtain ⟨p, hp, hs⟩ := of_myproc_ok hs
    exact of_leads ⟨_, sleep_leads h hi (henv ▸ hp) chan⟩ hs
  | wakeup chan =>
    obtain ⟨a', h', hi', -, hid⟩ := wakeup1_inv h hi hs
    exact ⟨a', h', hi', hid⟩
  | exit c =>
    obtain ⟨p, hp, hs⟩ := of_myproc_ok hs
    obtain ⟨a', h', hi', hid⟩ := exit_leads h hi (henv ▸ hp) hs
    exact ⟨a', h', hi', p, henv ▸ hp, hid⟩
  | wait c =>
    obtain ⟨p, hp, hs⟩ := of_myproc_ok hs
    obtain ⟨r, t, hx, hs⟩ := bind_eq_ok hs
    cases hs
    obtain ⟨a', h', hi', hid⟩ := of_leads (wait_leads h hi (henv ▸ hp)) hx
    exact ⟨a', h', hi', p, henv ▸ hp, hid⟩
  | balance =>
    have hb : exec .balance s = (.ok (), s) := by
      simp [exec, queuesNeedBalance, doBalance_ok h]
    rw [Step, hb] at hs
    obtain rfl : s = s' := (Prod.mk.inj hs).2
    exact ⟨a, h, hi, .refl a⟩
  | switchBack c =>
    obtain ⟨⟨hn, hm⟩, hs⟩ := of_inMode_ok hs
    rw [henv] at hn hm
    exact of_leads ⟨_, switchBack_leads h hi (c := c) (by simp [Env.runningOn, hm])⟩ hs

theorem Step.consistent {act : Act} (hs : Step s act s') (hc : Consistent s) : Consistent s' := by
  obtain ⟨a, h, hi⟩ := hc
  obtain ⟨a', h', hi', -⟩ := hs.spec h hi
  exact ⟨a', h', hi'⟩

end Xv6Rework
