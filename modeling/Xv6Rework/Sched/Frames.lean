import Xv6Rework.Lib.Frame
import Xv6Rework.Sched.Signal

/-!
# What the functions of the scheduler leave alone

One lemma per function of `Data/Queue.lean`, `Sched/Proc.lean` and `Sched/Signal.lean`:
which panics it contains, and what a run of it that returns does to the accounts of the
processes, that is to their states, priorities, time quanta and counted ticks.

The functions on queues leave all accounts alone (`Quiet`).  What a process does to give
up its CPU concerns its own account, and lowers its priority if anything (`Own`); a
wakeup raises the priorities of those it wakes (`Wakes`).
-/

namespace Xv6Rework

open Prog

/-- The messages of the panics in `queue.c`, `proc.c` and `sched.c`, and a fault. -/
def schedPanics : List String :=
  ["acquire", "release", "Inserting running proc", "PAGE FAULT", "proc not in queue",
    "Removing running proc", "head eq tail", "sched running", "stuck proc", "initproc exiting"]

/-! ## Accounts -/

/-- What the scheduler counts for a process. -/
structure Account where
  state : ProcState
  pPri : Int8
  pTimeQuantum : Int32
  pCpuUsage : Int32
  childSamePri : Bool

def Task.account (t : Task) : Account :=
  ⟨t.state, t.pPri, t.pTimeQuantum, t.pCpuUsage, t.childSamePri⟩

def Sched.account (s : Sched) (p : PId) : Account := (s.proc p).toTask.account

/-- No account changes. -/
abbrev Quiet : Sched → Sched → Prop := Same Sched.account

/-- Only the account of `p` changes, and if its priority does it becomes the lowest; the time
quantum and the ticks stay. -/
def Own (p : PId) (s s' : Sched) : Prop :=
  (∀ x, x ≠ p → s'.account x = s.account x) ∧
    ((s'.account p).pPri = (s.account p).pPri ∨ (s'.account p).pPri = LOW_USER_PRIORITY) ∧
    (s'.account p).pTimeQuantum = (s.account p).pTimeQuantum ∧
    (s'.account p).pCpuUsage = (s.account p).pCpuUsage

/-- Every priority that changes becomes the lowest; the time quanta and the ticks stay. -/
def Steady (s s' : Sched) : Prop := ∀ p,
  ((s'.account p).pPri = (s.account p).pPri ∨ (s'.account p).pPri = LOW_USER_PRIORITY) ∧
    (s'.account p).pTimeQuantum = (s.account p).pTimeQuantum ∧
    (s'.account p).pCpuUsage = (s.account p).pCpuUsage

/-- An account stays, or is that of a process that is woken. -/
def Account.Wakes (x x' : Account) : Prop :=
  x' = x ∨ (x.state = .sleeping ∧ x' = { x with state := .runnable, pPri := x.pPri + 1 })

/-- Every account stays, or is that of a process that is woken. -/
def Wakes (s s' : Sched) : Prop := ∀ p, (s.account p).Wakes (s'.account p)

instance (p : PId) : IsPreorder Sched (Own p) where
  refl s := ⟨fun _ _ => rfl, .inl rfl, rfl, rfl⟩
  trans s t u h h' := by
    refine ⟨fun x hx => (h'.1 x hx).trans (h.1 x hx), ?_, h'.2.2.1.trans h.2.2.1,
      h'.2.2.2.trans h.2.2.2⟩
    rcases h'.2.1 with e | e
    · rw [e]; exact h.2.1
    · exact .inr e

instance : IsPreorder Sched Steady where
  refl s p := ⟨.inl rfl, rfl, rfl⟩
  trans s t u h h' p := by
    refine ⟨?_, (h' p).2.1.trans (h p).2.1, (h' p).2.2.trans (h p).2.2⟩
    rcases (h' p).1 with e | e
    · rw [e]; exact (h p).1
    · exact .inr e

instance : IsPreorder Sched Wakes where
  refl s p := .inl rfl
  trans s t u h h' p := by
    rcases h p with e | ⟨hst, e⟩
    · rw [← e]; exact h' p
    · rcases h' p with e' | ⟨hst', -⟩
      · exact .inr ⟨hst, e'.trans e⟩
      · rw [e] at hst'; cases hst'

theorem Quiet.own {p : PId} (s s' : Sched) (h : Quiet s s') : Own p s s' := by
  have hx := congrFun h
  exact ⟨fun x _ => hx x, .inl (by rw [hx]), by rw [hx], by rw [hx]⟩

theorem Own.steady {p : PId} (s s' : Sched) (h : Own p s s') : Steady s s' := fun x => by
  by_cases hx : x = p
  · rw [hx]; exact h.2
  · rw [h.1 x hx]; exact ⟨.inl rfl, rfl, rfl⟩

theorem Quiet.steady (s s' : Sched) (h : Quiet s s') : Steady s s' := fun p => by
  rw [congrFun h p]; exact ⟨.inl rfl, rfl, rfl⟩

theorem Quiet.wakes (s s' : Sched) (h : Quiet s s') : Wakes s s' := fun p => .inl (congrFun h p)

section

variable {p : PId} {f : Proc → Proc}

theorem account_setProc_ne (s : Sched) {x : PId} (hx : x ≠ p) :
    (s.setProc p f).account x = s.account x := by
  simp [Sched.account, Sched.setProc_proc, hx]

@[simp] theorem account_setProc_self (s : Sched) :
    (s.setProc p f).account p = (f (s.proc p)).toTask.account := by
  simp [Sched.account]

/-- A store to fields that are not counted. -/
theorem Quiet.setProc (hf : ∀ x, (f x).toTask.account = x.toTask.account) (s : Sched) :
    Quiet s (s.setProc p f) := by
  funext x
  by_cases hx : x = p
  · rw [hx, account_setProc_self, hf]; rfl
  · exact account_setProc_ne s hx

/-- A store to the process itself that keeps all but its state. -/
theorem Own.setProc (hpri : ∀ x, (f x).pPri = x.pPri ∨ (f x).pPri = LOW_USER_PRIORITY)
    (hq : ∀ x, (f x).pTimeQuantum = x.pTimeQuantum) (hu : ∀ x, (f x).pCpuUsage = x.pCpuUsage)
    (s : Sched) : Own p s (s.setProc p f) := by
  refine ⟨fun x hx => account_setProc_ne s hx, ?_, ?_, ?_⟩ <;> rw [account_setProc_self]
  · exact hpri _
  · exact hq _
  · exact hu _

@[simp] theorem Task.account_unclaimed (t : Task) : t.unclaimed.account = t.account := by
  unfold Task.unclaimed
  split <;> rfl

end

variable {p : PId} {q : QId} {c : CpuId} {chan : Chan} {ctx : Context} {k : Nat} {x : Option PId}

/-! ## The functions on queues -/

theorem acquire_tame : Tame Quiet schedPanics (acquire q) :=
  .bind .gets fun _ => .ite (.halt (by decide)) (.update fun _ => rfl)

theorem release_tame : Tame Quiet schedPanics (release q) :=
  .bind .gets fun _ => .ite (.update fun _ => rfl) (.halt (by decide))

theorem acquireCheck_tame : Tame Quiet schedPanics acquireCheck :=
  .bind .gets fun _ => .ite (.halt (by decide)) (.update fun _ => rfl)

theorem releaseCheck_tame : Tame Quiet schedPanics releaseCheck :=
  .bind .gets fun _ => .ite (.update fun _ => rfl) (.halt (by decide))

/-- A store to the links of a process. -/
theorem setProc_tame {f : Proc → Proc} (hf : ∀ x, (f x).toTask.account = x.toTask.account) :
    Tame Quiet schedPanics (update fun s => s.setProc p f) := .update (Quiet.setProc hf)

theorem setQueue_tame {f : PQueue → PQueue} :
    Tame Quiet schedPanics (update fun s => s.setQueue q f) :=
  .update fun _ => rfl

theorem findPlace_tame : Tame Quiet schedPanics (findPlace p k x) := by
  induction k generalizing x with
  | zero => cases x with
    | none => exact .pure
    | some _ => exact .hang
  | succ k ih => cases x with
    | none => exact .pure
    | some _ => exact .bind .gets fun _ => .ite .pure (.bind .gets fun _ => ih)

theorem finishInsert_tame : Tame Quiet schedPanics (finishInsert p q) :=
  .bind setQueue_tame fun _ => .bind (setProc_tame fun _ => rfl) fun _ => release_tame

theorem insertProcIntoQueue_tame {q : Option QId} :
    Tame Quiet schedPanics (insertProcIntoQueue p q) := by
  cases q with
  | none => exact .pure
  | some q =>
    refine .bind .gets fun _ => .ite (.halt (by decide)) (.bind .gets fun _ => .ite .pure
      (.bind acquire_tame fun _ => .bind .gets fun head => ?_))
    cases head with
    | none =>
      exact .bind setQueue_tame fun _ => .bind (setProc_tame fun _ => rfl) fun _ =>
        finishInsert_tame
    | some h =>
      refine .bind .gets fun next => ?_
      cases next with
      | none =>
        exact .bind setQueue_tame fun _ => .bind (setProc_tame fun _ => rfl) fun _ =>
          .bind (setProc_tame fun _ => rfl) fun _ => finishInsert_tame
      | some this =>
        refine .bind findPlace_tame fun place => ?_
        cases place with
        | some this =>
          refine .bind .gets fun before => .bind (setProc_tame fun _ => rfl) fun _ => ?_
          cases before with
          | some b =>
            exact .bind (setProc_tame fun _ => rfl) fun _ => .bind (setProc_tame fun _ => rfl)
              fun _ =>
              finishInsert_tame
          | none =>
            exact .bind setQueue_tame fun _ => .bind (setProc_tame fun _ => rfl) fun _ =>
              finishInsert_tame
        | none =>
          refine .bind .gets fun tail => ?_
          cases tail with
          | none => exact .halt (by decide)
          | some t =>
            exact .bind (setProc_tame fun _ => rfl) fun _ => .bind (setProc_tame fun _ => rfl)
              fun _ =>
              .bind setQueue_tame fun _ => finishInsert_tame

theorem claimProc_tame : Tame Quiet schedPanics (claimProc p c) :=
  .bind acquireCheck_tame fun _ => .bind .gets fun _ => .ite
    (.bind (setProc_tame fun _ => rfl) fun _ => .bind releaseCheck_tame fun _ => .pure)
    (.bind releaseCheck_tame fun _ => .pure)

theorem unclaimProc_tame : Tame Quiet schedPanics (unclaimProc p) :=
  .bind acquireCheck_tame fun _ => .bind .gets fun _ => .bind
    (setProc_tame fun _ => Task.account_unclaimed _) fun _ => .bind releaseCheck_tame fun _ => .pure

theorem findProc_tame : Tame Quiet schedPanics (findProc p k x) := by
  induction k generalizing x with
  | zero => cases x with
    | none => exact .pure
    | some _ => exact .hang
  | succ k ih => cases x with
    | none => exact .pure
    | some _ => exact .ite .pure (.bind .gets fun _ => ih)

theorem finishRemove_tame : Tame Quiet schedPanics (finishRemove p q) :=
  .bind setQueue_tame fun _ => .bind (setProc_tame fun _ => rfl) fun _ => .bind unclaimProc_tame
    fun _ =>
    release_tame

theorem removeProcFromQueue_tame {q : Option QId} :
    Tame Quiet schedPanics (removeProcFromQueue p q) := by
  cases q with
  | none => exact .pure
  | some q =>
    refine .bind .gets fun head => ?_
    cases head with
    | none => exact .halt (by decide)
    | some h =>
      refine .bind .gets fun _ => .ite (.halt (by decide)) (.bind acquire_tame fun _ => .ite ?_
        (.bind findProc_tame fun _ => .ite ?_ .pure))
      · refine .bind .gets fun after => .bind setQueue_tame fun _ => ?_
        cases after with
        | some n => exact .bind (setProc_tame fun _ => rfl) fun _ => finishRemove_tame
        | none => exact .bind setQueue_tame fun _ => finishRemove_tame
      · refine .bind .gets fun before => .bind .gets fun after => ?_
        rcases before with _ | b
        on_goal 2 => refine .bind (setProc_tame fun _ => rfl) fun _ => ?_
        -- both ways go on with the link back from the process that follows
        all_goals
          cases after with
          | some n => exact .bind (setProc_tame fun _ => rfl) fun _ => finishRemove_tame
          | none => exact .bind setQueue_tame fun _ => finishRemove_tame

theorem purgeLoop_tame : Tame Quiet schedPanics (purgeLoop q k x) := by
  induction k generalizing x with
  | zero => cases x with
    | none => exact .pure
    | some _ => exact .hang
  | succ k ih => cases x with
    | none => exact .pure
    | some _ =>
      exact .bind .gets fun _ => .ite
        (.bind release_tame fun _ => .bind removeProcFromQueue_tame fun _ =>
          .bind acquire_tame fun _ => .bind .gets fun _ => ih)
        (.bind .gets fun _ => ih)

theorem purgeQueue_tame : Tame Quiet schedPanics (purgeQueue q) :=
  .bind acquire_tame fun _ => .bind .gets fun _ => .bind purgeLoop_tame fun _ => release_tame

theorem shiftQueue_tame : Tame Quiet schedPanics (shiftQueue q) := by
  refine .bind .gets fun head => ?_
  cases head with
  | none => exact .bind acquire_tame fun _ => release_tame
  | some h =>
    refine .bind .gets fun _ => .ite (.halt (by decide))
      (.bind acquire_tame fun _ => .bind .gets fun next => ?_)
    cases next with
    | none =>
      exact .bind unclaimProc_tame fun _ => .bind removeProcFromQueue_tame fun _ => release_tame
    | some n =>
      have hend : Tame Quiet schedPanics (do
          let pq ← gets fun s : Sched => s.queue q
          if pq.head ≠ none ∧ pq.head = pq.tail then halt "head eq tail" : SchedM Unit) :=
        .bind .gets fun _ => .ite (.halt (by decide)) .pure
      have hrest : Tame Quiet schedPanics (do
          update fun s => s.setProc n fun p => { p with prev := none }
          update fun s => s.setQueue q fun pq => { pq with head := some n }
          update fun s => s.setProc h fun p => { p with next := none }
          let _ ← unclaimProc h
          release q
          if (← gets fun s => (s.proc h).state) = .runnable then
            insertProcIntoQueue h (some .ready)
          let pq ← gets fun s => s.queue q
          if pq.head ≠ none ∧ pq.head = pq.tail then
            halt "head eq tail" : SchedM Unit) :=
        .bind (setProc_tame fun _ => rfl) fun _ => .bind setQueue_tame fun _ =>
          .bind (setProc_tame fun _ => rfl) fun _ => .bind unclaimProc_tame fun _ =>
          .bind release_tame fun _ => .bind .gets fun _ =>
          .ite (.bind insertProcIntoQueue_tame fun _ => hend) hend
      exact .bind .gets fun _ => .ite (.bind insertProcIntoQueue_tame fun _ => hrest) hrest

theorem doBalance_tame {mask : CpuId → Bool} : Tame Quiet schedPanics (doBalance mask) := by
  refine .bind .gets fun _ => .forM fun c => .ite (.bind .gets fun tail => ?_) .pure
  cases tail with
  | none => exact .pure
  | some _ =>
    exact .bind .gets fun _ => .bind removeProcFromQueue_tame fun _ => insertProcIntoQueue_tame

theorem swtchBack_tame : Tame Quiet schedPanics (swtchBack c p ctx) :=
  .bind (setProc_tame fun _ => rfl) fun _ => .update fun _ => rfl

theorem leaveQueue_tame : Tame Quiet schedPanics (leaveQueue p) := by
  refine .bind .gets fun cpu => ?_
  cases cpu with
  | some k => exact .bind removeProcFromQueue_tame fun _ => setProc_tame fun _ => rfl
  | none =>
    refine .bind .gets fun curr => ?_
    cases curr with
    | some q => exact removeProcFromQueue_tame
    | none => exact .pure

theorem handleSignals_tame : Tame Quiet schedPanics (handleSignals p) := by
  have hend : ∀ t : Task, Tame Quiet schedPanics (do
      if t.pSig &&& SIGCPU ≠ 0 then
        update fun s => s.setProc p fun x => { x with pSig := x.pSig &&& ~~~SIGCPU }
        halt "release"
      if t.pIgn = 0 then
        update fun s => s.setProc p fun x => { x with killed := true }
      else if t.pIgn &&& t.pSig ≠ 0 then
        update fun s => s.setProc p fun x => { x with pSig := 0 }
      else
        update fun s => s.setProc p fun x => { x with killed := true } : SchedM Unit) :=
    fun _ => .ite (.bind (setProc_tame fun _ => rfl) fun _ => .halt (by decide))
      (.ite (setProc_tame fun _ => rfl) (.ite (setProc_tame fun _ => rfl)
        (setProc_tame fun _ => rfl)))
  exact .bind .gets fun _ => .ite (.bind (setProc_tame fun _ => rfl) fun _ => hend _) (hend _)

theorem pickUp_tame : Tame Quiet schedPanics (pickUp c) := by
  refine .bind .gets fun head => ?_
  cases head with
  | none => exact .pure
  | some p =>
    have hend : Tame Quiet schedPanics (do
        if (← gets fun s => (s.proc p).curr) = some .ready then
          if (← claimProc p c) then
            removeProcFromQueue p (some .ready)
            insertProcIntoQueue p (some (.run c)) : SchedM Unit) :=
      .bind .gets fun _ => .ite (.bind claimProc_tame fun _ =>
        .ite (.bind removeProcFromQueue_tame fun _ => insertProcIntoQueue_tame) .pure) .pure
    exact .bind .gets fun _ => .ite (.bind handleSignals_tame fun _ => hend) hend

theorem myproc_tame : Tame Quiet schedPanics (myproc c) := by
  refine .bind .gets fun p => ?_
  cases p with
  | some _ => exact .pure
  | none => exact .hang

theorem inMode_tame {m : Mode} : Tame Quiet schedPanics (inMode c m) :=
  .bind .gets fun _ => .ite .pure .hang

/-! ## Giving up the CPU -/

/-- A function on queues does not change the process's own account either. -/
theorem quiet_own {α : Type} {y : SchedM α} (h : Tame Quiet schedPanics y) :
    Tame (Own p) schedPanics y :=
  h.mono Quiet.own

theorem own_setProc {f : Proc → Proc}
    (hpri : ∀ x, (f x).pPri = x.pPri ∨ (f x).pPri = LOW_USER_PRIORITY)
    (hq : ∀ x, (f x).pTimeQuantum = x.pTimeQuantum) (hu : ∀ x, (f x).pCpuUsage = x.pCpuUsage) :
    Tame (Own p) schedPanics (update fun s => s.setProc p f) :=
  .update (Own.setProc hpri hq hu)

theorem sched_tame : Tame (Own p) schedPanics (sched c p ctx) := by
  have hins : Tame (Own p) schedPanics (insertProcIntoQueue p (some .ready)) :=
    quiet_own insertProcIntoQueue_tame
  have hback : Tame (Own p) schedPanics (swtchBack c p ctx) := quiet_own swtchBack_tame
  refine .bind .gets fun _ => .ite (.halt (by decide)) (.bind .gets fun _ => .ite
    (.bind (quiet_own unclaimProc_tame) fun _ => .bind .gets fun cpu => ?_) ?_)
  on_goal 1 =>
    rcases cpu with _ | k
    · exact .halt (by decide)
    refine .bind (quiet_own removeProcFromQueue_tame) fun _ => ?_
  -- taken off the queue of a processor or not, it may go to the ready queue
  all_goals
    refine .bind .gets fun _ => .ite
      (.bind (own_setProc (fun _ => .inr rfl) (fun _ => rfl) fun _ => rfl) fun _ => .bind hins
      fun _ => hback) (.bind .gets fun _ => .ite (.bind .gets fun curr => ?_) hback)
    cases curr with
    | some q => exact .bind (quiet_own removeProcFromQueue_tame) fun _ => .bind hins fun _ => hback
    | none => exact .bind hins fun _ => hback

/-- The store of a state by the process itself. -/
theorem setState_tame {st : ProcState} :
    Tame (Own p) schedPanics (update fun s => s.setProc p fun x => { x with state := st }) :=
  own_setProc (fun _ => .inl rfl) (fun _ => rfl) fun _ => rfl

theorem yield_tame : Tame (Own p) schedPanics (yield c p) :=
  .bind setState_tame fun _ => .bind (quiet_own purgeQueue_tame) fun _ => sched_tame

theorem preempt_tame : Tame (Own p) schedPanics (preempt c p) :=
  .bind setState_tame fun _ => .bind (quiet_own purgeQueue_tame) fun _ => sched_tame

theorem sleep_tame : Tame (Own p) schedPanics (sleep c p chan) :=
  .bind (own_setProc (fun _ => .inl rfl) (fun _ => rfl) fun _ => rfl) fun _ =>
    .bind (quiet_own leaveQueue_tame) fun _ => .bind (quiet_own insertProcIntoQueue_tame)
      fun _ => sched_tame

/-! ## Waking -/

theorem wakeupLoop_keeps : Keeps Wakes (wakeupLoop chan k x) := by
  induction k generalizing x with
  | zero => cases x with
    | none => exact .pure
    | some _ => exact .stop
  | succ k ih => cases x with
    | none => exact .pure
    | some p =>
      intro s _ s' hs'
      refine (?_ : wlp (wakeupLoop chan (k + 1) (some p)) (fun _ s' => Wakes s s') s) _ s' hs'
      have hrest : ∀ t, Wakes s t → wlp (do
          wakeupLoop chan k (← gets fun s : Sched => (s.proc p).next))
              (fun _ s' => Wakes s s') t := by
        intro t ht
        rw [wlp_bind, wlp_gets]
        exact ih.wlp fun _ u hu => IsTrans.trans s t u ht hu
      simp only [wakeupLoop, wlp_bind, wlp_gets, wlp_ite, wlp_update, wlp_halt]
      refine ⟨fun hst => ?_, fun _ => ⟨fun _ => trivial, fun _ => ?_⟩⟩
      · -- the two stores of a wakeup, with the queues relinked around them
        refine removeProcFromQueue_tame.keeps.wlp fun _ t ht => insertProcIntoQueue_tame.keeps.wlp
          fun _ u hu => ?_
        have hrest := hrest (u.setProc p fun x => { x with pFlag := URGENT, pPri := x.pPri + 1 })
          fun x => ?_
        · simpa only [wlp_bind, wlp_gets] using hrest
        have hux : u.account x = (t.setProc p fun x => { x with state := .runnable }).account x :=
          congrFun hu x
        have htx : t.account x = s.account x := congrFun ht x
        by_cases hx : x = p
        · subst hx
          rw [account_setProc_self] at hux ⊢
          refine .inr ⟨hst.1, ?_⟩
          rw [← htx]
          exact congrArg (fun y : Account => { y with pPri := y.pPri + 1 }) hux
        · rw [account_setProc_ne _ hx] at hux ⊢
          exact .inl (hux.trans htx)
      · simpa only [wlp_bind, wlp_gets] using hrest s (refl s)

theorem wakeupLoop_panics : Panics schedPanics (wakeupLoop chan k x) := by
  induction k generalizing x with
  | zero => cases x with
    | none => exact .pure
    | some _ => exact .hang
  | succ k ih => cases x with
    | none => exact .pure
    | some p =>
      exact .bind .gets fun _ => .ite
        (.bind removeProcFromQueue_tame.panics fun _ => .bind .update fun _ =>
          .bind insertProcIntoQueue_tame.panics fun _ => .bind .update fun _ =>
            .bind .gets fun _ => ih)
        (.ite (.halt (by decide)) (.bind .gets fun _ => ih))

theorem wakeup1_tame : Tame Wakes schedPanics (wakeup1 chan) :=
  .bind .gets fun _ => ⟨wakeupLoop_keeps, wakeupLoop_panics⟩

theorem reparent_tame {p' : PId} : Tame Wakes schedPanics (reparent p p') :=
  .bind .gets fun _ => .ite (.bind .gets fun _ => .bind
    (.update fun s => Quiet.wakes _ _ (Quiet.setProc (by intro; rfl) s)) fun _ =>
    wakeup1_tame) .pure

/-! ## The other steps -/

/-- What `exit` does behind its wakeups concerns the account of the process only. -/
theorem exit_rest_keeps : Keeps (Own p) (do
    update fun s => s.setProc p fun x => { x with state := .zombie, killed := true }
    update fun s => { s with
      nextpid := (s.proc p).pid
      cAvg := s.cAvg.add (s.proc p).pCpuUsage.toUInt32 }
    leaveQueue p
    sched c p .inExit : SchedM Unit) :=
  .bind (.update (Own.setProc (fun _ => .inl rfl) (fun _ => rfl) fun _ => rfl)) fun _ =>
    .bind (.update fun _ => Quiet.own _ _ rfl) fun _ => .bind (quiet_own leaveQueue_tame).keeps
      fun _ =>
    sched_tame.keeps

/-- The end of a process: some are woken, and then it concerns its own account only. -/
theorem exit_keeps : Keeps (fun s s' => ∃ t, Wakes s t ∧ Own p t s') (exit c p) := by
  intro s r s' hs'
  refine (?_ : wlp (exit c p) (fun _ s' => ∃ t, Wakes s t ∧ Own p t s') s) r s' hs'
  rw [exit, wlp_bind, wlp_gets, wlp_ite]
  refine ⟨fun _ => wlp_halt.mpr trivial, fun _ => ?_⟩
  rw [wlp_bind, wlp_gets, wlp_bind]
  refine wakeup1_tame.keeps.wlp fun _ t ht => ?_
  rw [wlp_bind]
  refine (Keeps.forM fun _ => reparent_tame.keeps).wlp fun _ u hu => ?_
  exact exit_rest_keeps.wlp fun _ v hv => ⟨u, IsTrans.trans s t u ht hu, hv⟩

theorem exit_panics : Panics schedPanics (exit c p) :=
  .bind .gets fun _ => .ite (.halt (by decide)) (.bind .gets fun _ => .bind wakeup1_tame.panics
    fun _ =>
    .bind (.forM fun _ => reparent_tame.panics) fun _ => .bind .update fun _ =>
      .bind .update fun _ =>
    .bind leaveQueue_tame.panics fun _ => sched_tame.panics)

theorem switchTo_tame : Tame Steady schedPanics (switchTo c) := by
  refine .bind .gets fun head => ?_
  cases head with
  | none => exact .pure
  | some p =>
    exact .bind (.update fun _ => Quiet.steady _ _ rfl) fun _ => .bind
      (setState_tame.mono Own.steady) fun _ =>
      .bind .gets fun _ => .ite (.update fun s => Quiet.steady _ _ (Quiet.setProc
        (by intro; rfl) s)) .pure

theorem scheduler_tame : Tame Steady schedPanics (scheduler c) :=
  .bind .gets fun _ => .bind .gets fun _ => .ite (.bind .gets fun _ => doBalance_tame.mono
    Quiet.steady) (.bind (pickUp_tame.mono Quiet.steady) fun _ => switchTo_tame)

theorem wait_tame : Tame Steady schedPanics (wait c p) := by
  refine .bind .gets fun _ => .bind .gets fun z => ?_
  cases z with
  | some z =>
    have hfree : Tame Steady schedPanics (update fun s : Sched => s.setProc z fun x => { x with
        pid := 0, parent := none, killed := false, state := .unused }) :=
      .update fun s => Own.steady _ _
        (Own.setProc (by intro; exact .inl rfl) (by intro; rfl) (by intro; rfl) s)
    exact .bind .gets fun _ => .bind hfree fun _ => .pure
  | none =>
    exact .bind .gets fun _ => .ite .pure (.bind (sleep_tame.mono Own.steady) fun _ => .pure)

theorem allocproc_panics {kalloc : Bool} : Panics schedPanics (allocproc kalloc) := by
  refine .bind .gets fun p => ?_
  cases p with
  | none => exact .pure
  | some _ =>
    exact .bind .gets fun _ => .bind .update fun _ => .bind .update fun _ => .ite
      (.bind .update fun _ => .pure) (.bind .update fun _ => .pure)

theorem fork_panics {kalloc copyuvm : Bool} : Panics schedPanics (fork p kalloc copyuvm) := by
  refine .bind allocproc_panics fun np => ?_
  cases np with
  | none => exact .pure
  | some _ =>
    exact .ite (.bind .gets fun _ => .bind .update fun _ => .bind .update fun _ =>
      .bind .update fun _ => .bind .update fun _ => .bind insertProcIntoQueue_tame.panics fun _ =>
      .bind .gets fun _ => .pure) (.bind .update fun _ => .pure)

theorem exec_panics (act : Act) : Panics schedPanics (exec act) := by
  cases act with
  | schedule c => exact .bind inMode_tame.panics fun _ => scheduler_tame.panics
  | fork c _ _ => exact .bind myproc_tame.panics fun _ => .bind fork_panics fun _ => .pure
  | yield c => exact .bind myproc_tame.panics fun _ => yield_tame.panics
  | preempt c => exact .bind myproc_tame.panics fun _ => preempt_tame.panics
  | sleep c chan => exact .bind myproc_tame.panics fun _ => sleep_tame.panics
  | wakeup chan => exact wakeup1_tame.panics
  | exit c => exact .bind myproc_tame.panics fun _ => exit_panics
  | wait c => exact .bind myproc_tame.panics fun _ => .bind wait_tame.panics fun _ => .pure
  | balance => exact .bind .gets fun _ => doBalance_tame.panics
  | switchBack c =>
    exact .bind inMode_tame.panics fun _ => .bind shiftQueue_tame.panics fun _ => .update

theorem kill_panics {pid : Int32} : Panics schedPanics (kill pid) := by
  refine .bind .gets fun p => ?_
  cases p with
  | none => exact .pure
  | some _ =>
    exact .bind .update fun _ => .bind .gets fun _ => .ite (.bind .update fun _ => .pure) .pure

theorem sig_panics {sigmask : BitVec 32} {pid : Int32} : Panics schedPanics (sig sigmask pid) := by
  refine .ite .pure (.bind .gets fun p => ?_)
  cases p with
  | none => exact .pure
  | some _ =>
    exact .bind .update fun _ => .bind .gets fun _ => .ite
      (.bind .update fun _ => .bind .update fun _ => .pure) (.bind .update fun _ => .pure)

/-- No call of the scheduler panics with another message. -/
theorem Call.exec_panics (call : Call) : Panics schedPanics call.exec := by
  cases call with
  | act x => exact Xv6Rework.exec_panics x
  | kill c pid => exact .bind myproc_tame.panics fun _ => .bind kill_panics fun _ => .pure
  | sig c sigmask pid => exact .bind myproc_tame.panics fun _ => .bind sig_panics fun _ => .pure

/-- What the steps that neither create, wake nor end a process do to the accounts. -/
theorem Step.steady {s s' : Sched} {act : Act} (hs : Step s act s')
    (hfork : ∀ c k u, act ≠ .fork c k u) (hwakeup : ∀ chan, act ≠ .wakeup chan)
    (hexit : ∀ c, act ≠ .exit c) : Steady s s' := by
  have hmy : ∀ c, Tame Steady schedPanics (myproc c) := fun c => myproc_tame.mono Quiet.steady
  have hmode : ∀ c m, Tame Steady schedPanics (inMode c m) :=
    fun c m => inMode_tame.mono Quiet.steady
  suffices Tame Steady schedPanics (exec act) from this.keeps s () s' hs
  cases act with
  | schedule c => exact .bind (hmode c _) fun _ => scheduler_tame
  | fork c k u => exact absurd rfl (hfork c k u)
  | yield c => exact .bind (hmy c) fun _ => yield_tame.mono Own.steady
  | preempt c => exact .bind (hmy c) fun _ => preempt_tame.mono Own.steady
  | sleep c chan => exact .bind (hmy c) fun _ => sleep_tame.mono Own.steady
  | wakeup chan => exact absurd rfl (hwakeup chan)
  | exit c => exact absurd rfl (hexit c)
  | wait c => exact .bind (hmy c) fun _ => .bind wait_tame fun _ => .pure
  | balance => exact .bind .gets fun _ => doBalance_tame.mono Quiet.steady
  | switchBack c =>
    exact .bind (hmode c _) fun _ => .bind (shiftQueue_tame.mono Quiet.steady) fun _ =>
      .update fun _ => Quiet.steady _ _ rfl

end Xv6Rework
