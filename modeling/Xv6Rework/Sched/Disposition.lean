import Xv6Rework.Lib.Machine
import Xv6Rework.Sched.Proc

/-!
# The disposition of signals

`sigignore` of `kernel/sched/proc.c`, and what `handle_signals` makes of the mask it
builds up.

The mask is meant to be the set of signals whose last mention was by a call that masks
them.  The call that should unmask clears the bits it is *not* given and leaves the
others, so the mask is right after every call of a sequence exactly when nothing is ever
unmasked while something is masked.

`handle_signals` is meant to end the process when a signal is fatal or not ignored.  It
looks at the mask and at the pending set as wholes: one ignored signal saves the process
from all the others that are pending with it.
-/

namespace Xv6Rework

open Prog

/-! ## The mask -/

/-- The arguments of `sigignore`. -/
structure Ignore where
  sigmask : BitVec 32
  action : Int32
deriving DecidableEq, Repr

/-- `sigignore`, called by the process `p`. -/
def sigignore (p : PId) (x : Ignore) : SchedM Unit := do
  if x.action = 0 then
    update fun s => s.setProc p fun t => { t with pIgn := t.pIgn &&& x.sigmask }
  else
    update fun s => s.setProc p fun t => { t with pIgn := t.pIgn ||| x.sigmask }

/-- The mask a call leaves. -/
def Ignore.mask (x : Ignore) (ign : BitVec 32) : BitVec 32 :=
  if x.action = 0 then ign &&& x.sigmask else ign ||| x.sigmask

theorem sigignore_eq (p : PId) (x : Ignore) (s : Sched) :
    sigignore p x s = (.ok (), s.setProc p fun t => { t with pIgn := x.mask t.pIgn }) := by
  by_cases hx : x.action = 0 <;> simp [sigignore, Ignore.mask, hx]

/-- Was the last of the calls that mention signal bit `i` one that masks it?  The calls
are listed latest first. -/
def lastMasks (calls : List Ignore) (i : Nat) : Bool :=
  match calls.find? fun x => x.sigmask.getLsbD i with
  | none => false
  | some x => x.action ≠ 0

theorem lastMasks_cons (x : Ignore) (calls : List Ignore) (i : Nat) :
    lastMasks (x :: calls) i =
      if x.sigmask.getLsbD i then decide (x.action ≠ 0) else lastMasks calls i := by
  cases hi : x.sigmask.getLsbD i <;> simp [lastMasks, hi]

/-- A scheduler with the calls of `sigignore` that a process has made, latest first. -/
structure Masking where
  sched : Sched
  calls : List Ignore

namespace Masking

variable (p : PId)

/-- The process calls `sigignore`. -/
def Step (s : Masking) (x : Ignore) (s' : Masking) : Prop :=
  sigignore p x s.sched = (.ok (), s'.sched) ∧ s'.calls = x :: s.calls

/-- No call has been made, and no signal is masked. -/
def Start (s : Masking) : Prop := (s.sched.proc p).pIgn = 0 ∧ s.calls = []

/-- `p_ign` is the set of signals whose last mention masks them. -/
def Exact (s : Masking) : Prop := ∀ i, (s.sched.proc p).pIgn.getLsbD i = lastMasks s.calls i

/-- Signals are only unmasked while none is masked. -/
def NoUnmask (s : Masking) (x : Ignore) : Prop := x.action ≠ 0 ∨ (s.sched.proc p).pIgn = 0

variable {p} {s s' : Masking} {x : Ignore}

theorem Step.pIgn_eq (h : Step p s x s') :
    (s'.sched.proc p).pIgn = x.mask (s.sched.proc p).pIgn := by
  have hstep := h.1
  rw [sigignore_eq] at hstep
  simp [← (Prod.mk.inj hstep).2]

theorem Step.exact_iff (h : Step p s x s') (hs : Exact p s) : Exact p s' ↔ NoUnmask p s x := by
  simp only [Exact, h.2, lastMasks_cons, h.pIgn_eq, Ignore.mask, ← hs _]
  by_cases hx : x.action = 0
  · -- each bit is kept where it should be dropped, and dropped where it should be kept
    simp only [hx, if_true, BitVec.getLsbD_and, NoUnmask, ne_eq, not_true_eq_false, false_or,
      decide_false]
    constructor
    · intro hbits
      refine BitVec.eq_of_getLsbD_eq fun i _ => ?_
      have hi := hbits i
      cases hm : x.sigmask.getLsbD i <;> simpa [hm] using hi
    · intro hzero i
      simp [hzero]
  · refine iff_of_true (fun i => ?_) (.inl hx)
    cases hm : x.sigmask.getLsbD i <;> simp [hx, hm]

/-- In a sequence of calls the mask is right all along exactly when signals are only
unmasked while none is masked. -/
theorem exact_iff_noUnmask {run : List (Ignore × Masking)} (h : Start p s)
    (hrun : Trace (Step p) s run) :
    Trace.Always (Exact p) s run ↔ Trace.Meets (NoUnmask p) s run := by
  refine hrun.always_iff_meets (fun _ => True) (fun _ _ _ _ _ _ _ => trivial)
    (fun s x s' _ hs hstep => hstep.exact_iff hs) trivial fun i => ?_
  simp [h.1, h.2, lastMasks]

end Masking

/-! ## The pending set -/

/-- A signal is pending that is fatal or not ignored. -/
def Task.Doomed (t : Task) : Prop := t.pSig &&& fatalSignals ≠ 0 ∨ t.pSig &&& ~~~t.pIgn ≠ 0

/-- What `handle_signals` is meant to make of a task. -/
def Task.Handled (t t' : Task) : Prop :=
  (t.Doomed → t'.killed = true) ∧ (¬ t.Doomed → t'.pSig = 0 ∧ t'.killed = t.killed)

/-- The pending signals are dealt with as a whole: some signal is pending, and all that are
pending are ignored or none is. -/
def Task.Uniform (t : Task) : Prop := t.pSig ≠ 0 ∧
    (t.pSig &&& ~~~t.pIgn = 0 ∨ t.pIgn &&& t.pSig = 0)

/-- What `handle_signals` does without `SIGCPU`. -/
def Task.handle (t : Task) : Task :=
  if t.pIgn &&& t.pSig = 0 then { t with killed := true }
  else { t with pSig := 0, killed := t.killed || decide (t.pSig &&& fatalSignals ≠ 0) }

variable {s : Sched} {p : PId}

theorem handleSignals_eq (h : (s.proc p).pSig &&& SIGCPU = 0) :
    handleSignals p s = (.ok (), s.setProc p fun x => { x with toTask := x.toTask.handle }) := by
  rw [handleSignals, bind_gets, if_neg (not_not.2 h)]
  by_cases hand : (s.proc p).pIgn &&& (s.proc p).pSig = 0
  · simp only [hand, ne_eq, not_true_eq_false, if_false, ite_self]
    split
    · refine congrArg (Prod.mk _) ((Sched.setProc_setProc ..).trans (Sched.setProc_congr ?_))
      rw [Task.handle, if_pos hand]
      rfl
    · refine congrArg (Prod.mk _) (Sched.setProc_congr ?_)
      rw [Task.handle, if_pos hand]
  · have hign : ¬(s.proc p).pIgn = 0 := by
      intro hzero
      exact hand (by rw [hzero]; exact BitVec.zero_and)
    simp only [hand, hign, ne_eq, not_false_eq_true, if_true, if_false]
    split
    · next hfatal =>
      refine congrArg (Prod.mk _) ((Sched.setProc_setProc ..).trans (Sched.setProc_congr ?_))
      rw [Task.handle, if_neg hand, decide_eq_true hfatal, Bool.or_true]
      rfl
    · next hfatal =>
      refine congrArg (Prod.mk _) (Sched.setProc_congr ?_)
      rw [Task.handle, if_neg hand, decide_eq_false hfatal, Bool.or_false]

/-- Where no pending signal is unmasked, all of them are masked. -/
theorem and_eq_of_and_not_eq_zero {x y : BitVec 32} (h : x &&& ~~~y = 0) : y &&& x = x := by
  refine BitVec.eq_of_getLsbD_eq fun i hi => ?_
  have hbit := congrArg (BitVec.getLsbD · i) h
  simp only [BitVec.getLsbD_and, BitVec.getLsbD_not, hi, decide_true, Bool.true_and] at hbit ⊢
  cases hx : x.getLsbD i <;> cases hy : y.getLsbD i <;> simp_all

theorem Task.handle_killed (t : Task) : t.handle.killed = true ↔
    t.killed = true ∨ t.pSig &&& fatalSignals ≠ 0 ∨ t.pIgn &&& t.pSig = 0 := by
  unfold Task.handle
  split
  · next hand => simp [hand]
  · next hand => simp only [Bool.or_eq_true, decide_eq_true_eq, hand, or_false]

theorem Task.handle_pSig (t : Task) : t.handle.pSig = 0 ↔ t.pSig = 0 ∨ t.pIgn &&& t.pSig ≠ 0 := by
  unfold Task.handle
  split
  · next hand => simp [hand]
  · next hand => exact iff_of_true rfl (.inr hand)

/-- `handle_signals` does what it is meant to exactly for a process that is killed already,
that has a fatal signal pending, or whose signals are all to be treated alike. -/
theorem Task.handled_handle_iff (t : Task) :
    t.Handled t.handle ↔ t.killed = true ∨ t.pSig &&& fatalSignals ≠ 0 ∨ t.Uniform := by
  have hall : t.pSig &&& ~~~t.pIgn = 0 → (t.pIgn &&& t.pSig = 0 ↔ t.pSig = 0) := fun h => by
    rw [and_eq_of_and_not_eq_zero h]
  have hnone : t.pSig = 0 → t.pSig &&& ~~~t.pIgn = 0 ∧ t.pSig &&& fatalSignals = 0 := fun h => by
    rw [h]; exact ⟨BitVec.zero_and, BitVec.zero_and⟩
  have hkilled : t.handle.killed = t.killed ↔
      (t.killed = true ∨ t.pSig &&& fatalSignals ≠ 0 ∨ t.pIgn &&& t.pSig = 0 ↔
        t.killed = true) := by
    rw [Bool.eq_iff_iff, t.handle_killed]
  rw [Task.Handled, Task.Doomed, Task.Uniform, hkilled, t.handle_killed, t.handle_pSig]
  grind

/-- When signals are disposed of as they should be.  The mask that `sigignore` builds up
is right after every call of a sequence exactly when signals are only unmasked while none
is masked; and for every mask and every pending set without `SIGCPU`, `handle_signals`
does what it is meant to exactly for a process that is killed already, that has a fatal
signal pending, or that has signals pending of which all or none are ignored. -/
theorem disposition_iff (p : PId) :
    (∀ (s : Masking) (run : List (Ignore × Masking)), s.Start p → Trace (Masking.Step p) s run →
      (Trace.Always (Masking.Exact p) s run ↔ Trace.Meets (Masking.NoUnmask p) s run)) ∧
    ∀ s : Sched, (s.proc p).pSig &&& SIGCPU = 0 →
      ((∃ s', handleSignals p s = (.ok (), s') ∧ (s.proc p).toTask.Handled (s'.proc p).toTask) ↔
        (s.proc p).killed = true ∨ (s.proc p).pSig &&& fatalSignals ≠ 0 ∨
        (s.proc p).toTask.Uniform) := by
  refine ⟨fun s run h hrun => Masking.exact_iff_noUnmask h hrun, fun s hcpu => ?_⟩
  rw [handleSignals_eq hcpu, ← Task.handled_handle_iff]
  constructor
  · rintro ⟨s', hs', hhandled⟩
    rw [← (Prod.mk.inj hs').2] at hhandled
    simpa using hhandled
  · exact fun hhandled => ⟨_, rfl, by simpa using hhandled⟩

/-- The first process with `SIGHUP` ignored, and `SIGHUP` and `SIGINT` pending. -/
def hungUp : Sched := (Sched.boot 1).setProc 0 fun x => { x with pIgn := 1, pSig := 3 }

/-- A process that masks `SIGHUP` and then unmasks it is left with it masked; and a process
that ignores `SIGHUP` survives a `SIGINT` that is pending with it. -/
theorem not_disposed :
    (∃ run, Masking.Start 0 ⟨Sched.boot 1, []⟩ ∧ Trace (Masking.Step 0) ⟨Sched.boot 1, []⟩ run ∧
      run.map Prod.fst = [⟨1, 1⟩, ⟨1, 0⟩] ∧
      ¬ Trace.Always (Masking.Exact 0) ⟨Sched.boot 1, []⟩ run) ∧
    (hungUp.proc 0).pSig &&& SIGCPU = 0 ∧
    ¬ ∃ s', handleSignals 0 hungUp = (.ok (), s') ∧
      (hungUp.proc 0).toTask.Handled (s'.proc 0).toTask := by
  refine ⟨⟨[(⟨1, 1⟩, ⟨(sigignore 0 ⟨1, 1⟩ (Sched.boot 1)).2, [⟨1, 1⟩]⟩),
    (⟨1, 0⟩, ⟨(sigignore 0 ⟨1, 0⟩ (sigignore 0 ⟨1, 1⟩ (Sched.boot 1)).2).2, [⟨1, 0⟩, ⟨1, 1⟩]⟩)],
    ⟨rfl, rfl⟩, .cons ⟨rfl, rfl⟩ (.cons ⟨rfl, rfl⟩ .nil), rfl, fun halways => ?_⟩, by decide, ?_⟩
  · have hexact := halways.2 _ (List.mem_cons_of_mem _ (List.mem_singleton_self _)) 0
    revert hexact
    decide
  · rintro ⟨s', hs', hhandled⟩
    have hkilled := hhandled.1 (.inr (by decide))
    have hsaved : ((handleSignals 0 hungUp).2.proc 0).killed = false := by decide
    rw [hs'] at hsaved
    exact Bool.false_ne_true (hsaved.symm.trans hkilled)

end Xv6Rework
