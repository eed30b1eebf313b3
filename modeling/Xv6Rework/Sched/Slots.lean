import Xv6Rework.Sched.Signal

/-!
# What is left in a free slot

`allocproc` takes the first `UNUSED` slot and fills in some of its fields;
`killed` is not among them, so a new process starts with what the slot held.
`wait` resets `pid` and `killed` when it frees a slot.  The two failure exits
of `fork` reset `state` only, so the slot keeps the pid it was given; and
`kill` compares pids without looking at `state`.  A `kill` of that pid, or of
pid 0, then marks a free slot as killed.

The slots stay clean in all states of a run exactly if the run has no such
`fork` and no such `kill`.
-/

namespace Xv6Rework

open Prog

/-! ## Clean slots -/

/-- A free slot has pid 0 and is not killed. -/
def Task.Clean (t : Task) : Prop := t.state = .unused → t.pid = 0 ∧ t.killed = false

/-- A process that has ended is marked as killed. -/
def Task.EndedKilled (t : Task) : Prop := t.state = .zombie → t.killed = true

/-- Every `UNUSED` slot is clean. -/
def CleanSlots (s : Sched) : Prop := ∀ p, (s.proc p).Clean

/-- No process has the pid. -/
def Sched.Dead (s : Sched) (pid : Int32) : Prop := ∀ p, (s.proc p).state.Live → (s.proc p).pid ≠ pid

/-- A `kill` or `sig` of a pid that no process has changes nothing, and the
process a `fork` creates is not killed. -/
def Harmless (s : Sched) : Call → Prop
  | .act (.fork c kalloc copyuvm) => ∀ s', Step s (.fork c kalloc copyuvm) s' →
      ∀ p, (s.proc p).state = .unused → (s'.proc p).state ≠ .unused → (s'.proc p).killed = false
  | .act _ => True
  | .kill _ pid => s.Dead pid → ∀ r s', kill pid s = (.ok r, s') → s' = s
  | .sig _ sigmask pid => s.Dead pid → ∀ r s', sig sigmask pid s = (.ok r, s') → s' = s

/-- A `fork` that takes a slot does not fail, a `kill` does not find a free slot,
and an accepted `sig` does not find a process that has ended. -/
def KeepsClean (s : Sched) : Call → Prop
  | .act (.fork _ kalloc copyuvm) => (∃ p, (s.proc p).state = .unused) → s.nextpid ≠ 0 →
      (kalloc && copyuvm) = true
  | .act _ => True
  | .kill _ pid => ∀ p, s.findPid pid = some p → (s.proc p).state ≠ .unused
  | .sig _ sigmask pid => s.Dead pid → validMask sigmask → ∀ p, (s.proc p).state = .zombie →
      (s.proc p).pid ≠ pid

instance (s : Sched) (pid : Int32) : Decidable (s.Dead pid) :=
  inferInstanceAs (Decidable (∀ _, _ → _))

instance (s : Sched) : (call : Call) → Decidable (KeepsClean s call)
  | .act (.fork ..) => inferInstanceAs (Decidable ((∃ _, _) → _ → _))
  | .act (.schedule _) | .act (.yield _) | .act (.preempt _) | .act (.sleep ..) | .act (.wakeup _)
  | .act (.exit _) | .act (.wait _) | .act .balance | .act (.switchBack _) => isTrue trivial
  | .kill .. => inferInstanceAs (Decidable (∀ _, _ → _))
  | .sig .. => inferInstanceAs (Decidable (_ → _ → ∀ _, _ → _))

section

variable {s s' : Sched} {a a' : Abs} {p np : PId}

/-! ## What the steps of the scheduler keep -/

theorem Abs.SameId.clean (h : a.SameId a' p) (hc : (a.task p).Clean) : (a'.task p).Clean := by
  intro hu
  have hu' := h.unused_iff.mp hu
  rw [h.pid_eq, h.killed_eq fun hl => hl.1 hu']
  exact hc hu'

theorem Abs.SameId.endedKilled (h : a.SameId a' p) (hk : (a.task p).EndedKilled) :
    (a'.task p).EndedKilled := by
  intro hz
  have hz' := h.zombie_iff.mp hz
  rw [h.killed_eq fun hl => hl.2 hz']
  exact hk hz'

/-- Every step of the scheduler leaves ended processes marked. -/
theorem IdsAfter.endedKilled {act : Act} (h : IdsAfter a a' act)
    (hk : ∀ p, (a.task p).EndedKilled) (p : PId) : (a'.task p).EndedKilled := by
  cases act with
  | fork c kalloc copyuvm =>
    obtain ⟨_, -, -, h⟩ := h
    split at h
    · exact (h.same p).endedKilled (hk p)
    · next np _ =>
      by_cases e : p = np
      · subst e
        have ho := h.outcome
        intro hz
        split at ho <;> simp [ho.1] at hz
      · exact (h.same p e).endedKilled (hk p)
  | wait c =>
    obtain ⟨_, -, h⟩ := h
    split at h
    · exact (h.same p).endedKilled (hk p)
    · next x _ =>
      by_cases e : p = x
      · subst e
        intro hz
        simp [h.unused] at hz
      · exact (h.same p e).endedKilled (hk p)
  | exit c =>
    obtain ⟨q, -, h⟩ := h
    by_cases e : p = q
    · subst e
      exact fun _ => h.killed
    · exact (h.same p e).endedKilled (hk p)
  | _ => exact (Abs.SameIds.same h p).endedKilled (hk p)

/-- A step of the scheduler other than a `fork` keeps the slots clean. -/
theorem IdsAfter.clean {act : Act} (h : IdsAfter a a' act) (hf : ∀ c k u, act ≠ .fork c k u)
    (hc : ∀ p, (a.task p).Clean) (p : PId) : (a'.task p).Clean := by
  cases act with
  | fork c kalloc copyuvm => exact absurd rfl (hf c kalloc copyuvm)
  | wait c =>
    obtain ⟨_, -, h⟩ := h
    split at h
    · exact (h.same p).clean (hc p)
    · next x _ =>
      by_cases e : p = x
      · subst e
        exact fun _ => ⟨h.clean.1, h.clean.2.1⟩
      · exact (h.same p e).clean (hc p)
  | exit c =>
    obtain ⟨q, -, h⟩ := h
    by_cases e : p = q
    · subst e
      intro hu
      simp [h.zombie] at hu
    · exact (h.same p e).clean (hc p)
  | _ => exact (Abs.SameIds.same h p).clean (hc p)

/-! ## `fork` -/

theorem Sim.cleanSlots_iff (h : Sim s a) : CleanSlots s ↔ ∀ p, (a.task p).Clean := by
  simp only [CleanSlots, h.task_eq]

/-- A `fork` that has taken a slot leaves the slots clean exactly if it succeeds, or
gave out pid 0. -/
theorem Abs.Allocated.clean_iff {parent : Option PId} {made : Bool}
    (h : a.Allocated a' np parent made) (hc : ∀ p, (a.task p).Clean) :
    (∀ p, (a'.task p).Clean) ↔ (a.env.nextpid ≠ 0 → made = true) := by
  have ho := h.outcome
  constructor
  · intro hc' hn
    by_contra hm
    rw [if_neg hm] at ho
    exact hn (h.pid_eq.symm.trans (hc' np ho.1).1)
  · intro hm p
    by_cases e : p = np
    · subst e
      intro hu
      cases made with
      | true => simp [ho.1] at hu
      | false =>
        have hz : a.env.nextpid = 0 := by simpa using hm
        exact ⟨h.pid_eq.trans hz, h.killed_eq.trans (hc p h.unused).2⟩
    · exact (h.same p e).clean (hc p)

/-- A `fork` is harmless from clean slots, and keeps them clean if it does not
fail. -/
theorem fork_clean_iff {c : CpuId} {kalloc copyuvm : Bool} (hd : Disturbed s)
    (hc : CleanSlots s) (hs : Step s (.fork c kalloc copyuvm) s') :
    CleanSlots s' ∧ Harmless s (.act (.fork c kalloc copyuvm)) ↔
      KeepsClean s (.act (.fork c kalloc copyuvm)) := by
  obtain ⟨a, h, hi⟩ := hd
  obtain ⟨a', h', -, p0, -, -, hid⟩ := hs.spec h hi
  have hsame : ∀ t, Step s (.fork c kalloc copyuvm) t → t = s' := fun t ht =>
    (Prod.mk.inj (ht.symm.trans hs)).2
  rw [h'.cleanSlots_iff, Harmless, KeepsClean]
  rw [h.cleanSlots_iff] at hc
  simp only [h.task_eq, h.env_eq]
  split at hid
  · next hnone =>
    have hfull : ∀ p, (a.task p).state ≠ .unused := fun p => by
      simpa using List.find?_eq_none.mp hnone p (List.mem_finRange p)
    exact ⟨fun _ ⟨p, hp⟩ => absurd hp (hfull p), fun _ => ⟨fun p => (hid.same p).clean (hc p),
      fun _ _ p hp => absurd hp (hfull p)⟩⟩
  · next np _ =>
    rw [hid.clean_iff hc]
    refine ⟨fun hm _ => hm.1, fun hm => ⟨hm ⟨np, hid.unused⟩, fun t ht p hp hp' => ?_⟩⟩
    obtain rfl := hsame t ht
    rw [h'.task_eq] at hp' ⊢
    by_cases e : p = np
    · subst e
      exact hid.killed_eq.trans (hc p hp).2
    · exact absurd ((hid.same p e).unused_iff.mpr hp) hp'

/-! ## `kill` and `sig` -/

/-- Setting `killed` where it is set changes nothing. -/
theorem setProc_kill_eq (hk : (s.proc p).killed = true) (hst : (s.proc p).state ≠ .sleeping) :
    (s.setProc p fun x => { x with toTask := x.toTask.kill }) = s := by
  have : ({ s.proc p with toTask := (s.proc p).toTask.kill } : Proc) = s.proc p := by
    simp [Task.kill, hst, ← hk]
  simp [Sched.setProc, this]

/-- A `kill` keeps the slots clean, and spares the dead, exactly if it does not find
a free slot. -/
theorem kill_clean_iff {c : CpuId} {pid : Int32} (hk : ∀ p, (s.proc p).EndedKilled)
    (hc : CleanSlots s) (hs : CallStep s (.kill c pid) s') :
    CleanSlots s' ∧ Harmless s (.kill c pid) ↔ KeepsClean s (.kill c pid) := by
  obtain ⟨r, t, hx, hs⟩ := bind_eq_ok (of_myproc_then hs)
  cases hs
  have heq := kill_eq pid s
  rw [Harmless, KeepsClean]
  rcases hp : s.findPid pid with _ | p
  · simp only [hp] at heq
    obtain rfl : s' = s := (Prod.mk.inj (hx.symm.trans heq)).2
    simp only [reduceCtorEq, false_implies, implies_true, iff_true]
    exact ⟨hc, fun _ r u hu => (Prod.mk.inj (hu.symm.trans heq)).2⟩
  · simp only [hp] at heq
    obtain rfl := (Prod.mk.inj (hx.symm.trans heq)).2
    have hpid : (s.proc p).pid = pid := by simpa using List.find?_some hp
    simp only [Option.some.injEq, forall_eq']
    constructor
    · rintro ⟨hc', -⟩ hu
      have := (hc' p (by simp [Task.kill, hu])).2
      simp [Task.kill] at this
    · intro hu
      refine ⟨fun p' => ?_, fun hdead r u hu' => ?_⟩
      · rw [Sched.setProc_proc]
        split
        · next e =>
          intro hu'
          simp only [Task.kill] at hu'
          split at hu' <;> simp_all
        · exact hc p'
      · obtain rfl := (Prod.mk.inj (hu'.symm.trans heq)).2
        have hz : (s.proc p).state = .zombie := by
          by_contra hz
          exact hdead p ⟨hu, hz⟩ hpid
        exact setProc_kill_eq (hk p hz) (by simp [hz])

/-- A `sig` keeps the slots clean, and spares the dead exactly if it does not wake
one. -/
theorem sig_clean_iff {c : CpuId} {sigmask : BitVec 32} {pid : Int32}
    (hc : CleanSlots s) (hs : CallStep s (.sig c sigmask pid) s') :
    CleanSlots s' ∧ Harmless s (.sig c sigmask pid) ↔ KeepsClean s (.sig c sigmask pid) := by
  obtain ⟨r, t, hx, hs⟩ := bind_eq_ok (of_myproc_then hs)
  cases hs
  have heq := sig_eq sigmask pid s
  rw [Harmless, KeepsClean]
  have hnop : ∀ r', sig sigmask pid s = (.ok r', s) →
      CleanSlots s' ∧ (s.Dead pid → ∀ r u, sig sigmask pid s = (.ok r, u) → u = s) := by
    intro r' hr'
    obtain rfl : s' = s := (Prod.mk.inj (hx.symm.trans hr')).2
    exact ⟨hc, fun _ r u hu => (Prod.mk.inj (hu.symm.trans hr')).2⟩
  by_cases hv : validMask sigmask
  · rw [if_pos hv] at heq
    rcases hp : s.findUsed pid with _ | p
    · simp only [hp] at heq
      refine iff_of_true (hnop _ heq) fun _ _ p hz hpid => ?_
      have := List.find?_eq_none.mp hp p (List.mem_finRange p)
      simp [hpid, hz] at this
    · simp only [hp] at heq
      obtain rfl := (Prod.mk.inj (hx.symm.trans heq)).2
      obtain ⟨hpid, hu⟩ := Sched.findUsed_used hp
      -- what it finds among the dead is a process that has ended
      have hzombie : s.Dead pid → (s.proc p).state = .zombie := fun hdead => by
        by_contra hz
        exact hdead p ⟨hu, hz⟩ hpid
      refine ⟨fun ⟨_, hsame⟩ hdead _ => ?_, fun hkeep => ⟨fun p' => ?_, fun hdead => ?_⟩⟩
      · have hst := congrArg (fun u => (u.proc p).state) (hsame hdead _ _ heq)
        simp [Task.sig, hzombie hdead] at hst
      · rw [Sched.setProc_proc]
        split
        · intro hu'
          simp only [Task.sig] at hu'
          split at hu' <;> cases hu'
        · exact hc p'
      · exact absurd hpid (hkeep hdead hv p (hzombie hdead))
  · rw [if_neg hv] at heq
    exact iff_of_true (hnop _ heq) fun _ hv' => absurd hv' hv

/-! ## Whole runs -/

/-- The invariant of runs: that of the queues, and that ended processes are marked. -/
def SlotInv (s : Sched) : Prop := Disturbed s ∧ ∀ p, (s.proc p).EndedKilled

theorem CallStep.slotInv {call : Call} (hs : CallStep s call s') (h : SlotInv s) : SlotInv s' := by
  refine ⟨hs.disturbed h.1, ?_⟩
  obtain ⟨⟨a, hsim, hi⟩, hk⟩ := h
  cases call with
  | act x =>
    obtain ⟨a', h', -, hid⟩ := Step.spec hs hsim hi
    simp only [hsim.task_eq] at hk
    simp only [h'.task_eq]
    exact hid.endedKilled hk
  | kill c pid =>
    obtain ⟨r, t, hx, hs⟩ := bind_eq_ok (of_myproc_then hs)
    cases hs
    rw [kill_eq] at hx
    split at hx
    · cases hx; exact hk
    · next p _ =>
      cases hx
      intro p'
      rw [Sched.setProc_proc]
      split
      · exact fun _ => rfl
      · exact hk p'
  | sig c sigmask pid =>
    obtain ⟨r, t, hx, hs⟩ := bind_eq_ok (of_myproc_then hs)
    cases hs
    rw [sig_eq] at hx
    split at hx
    · split at hx
      · cases hx; exact hk
      · next p _ =>
        cases hx
        intro p'
        rw [Sched.setProc_proc]
        split
        · intro hz
          simp only [Task.sig] at hz
          split at hz <;> cases hz
        · exact hk p'
    · cases hx; exact hk

/-- One call keeps the slots clean and is harmless exactly if it meets the
condition. -/
theorem CallStep.clean_iff {call : Call} (h : SlotInv s) (hc : CleanSlots s)
    (hs : CallStep s call s') : CleanSlots s' ∧ Harmless s call ↔ KeepsClean s call := by
  cases call with
  | kill c pid => exact kill_clean_iff h.2 hc hs
  | sig c sigmask pid => exact sig_clean_iff hc hs
  | act x =>
    have hx : Step s x s' := hs
    obtain ⟨a, hsim, hi⟩ := h.1
    obtain ⟨a', h', -, hid⟩ := hx.spec hsim hi
    cases x with
    | fork c kalloc copyuvm => exact fork_clean_iff h.1 hc hx
    | _ =>
      rw [hsim.cleanSlots_iff] at hc
      exact iff_of_true ⟨h'.cleanSlots_iff.mpr (hid.clean (by simp) hc), trivial⟩ trivial

theorem Booted.slotInv (h : Booted s) : SlotInv s ∧ CleanSlots s := by
  have hd := h.disturbed
  obtain ⟨ncpu, -, -, hs⟩ := h
  obtain ⟨a, h, -, np, -, halloc⟩ := of_leads ⟨_, userinit_leads True ncpu⟩ hs
  have hslot : ∀ p, (a.task p).Clean ∧ (a.task p).EndedKilled := fun p => by
    by_cases e : p = np
    · subst e
      have ho := halloc.outcome
      simp only [if_true] at ho
      exact ⟨fun hu => by simp [ho.1] at hu, fun hz => by simp [ho.1] at hz⟩
    · exact ⟨(halloc.same p e).clean fun _ => ⟨rfl, rfl⟩,
        (halloc.same p e).endedKilled fun hz => by cases hz⟩
  refine ⟨⟨hd, ?_⟩, h.cleanSlots_iff.mpr fun p => (hslot p).1⟩
  simp only [h.task_eq]
  exact fun p => (hslot p).2

end

/-- Free slots are clean in every state of a run, and every call of it is harmless,
exactly if no call of the run leaves something in a free slot. -/
theorem cleanSlots_always_iff {s : Sched} {l : List (Call × Sched)} (h0 : Booted s)
    (h : Trace CallStep s l) :
    Trace.Always CleanSlots s l ∧ Trace.Meets Harmless s l ↔ Trace.Meets KeepsClean s l :=
  h.always_and_meets_iff SlotInv (fun _ _ _ hi _ _ hs => hs.slotInv hi)
    (fun _ _ _ hi hc hs => hs.clean_iff hi hc) h0.slotInv.1 h0.slotInv.2

/-- A run that forks, kills the child and a pid nobody has, and ends the child. -/
theorem cleanSlots_always_kill :
    Trace.Always CleanSlots (userinit (Sched.boot 2)).2
      (Trace.run Call.exec (userinit (Sched.boot 2)).2
        [.act (.schedule 0), .act (.fork 0 true true), .kill 0 2, .kill 0 7, .act (.schedule 1),
          .act (.exit 1), .act (.wait 0)]) :=
  ((cleanSlots_always_iff ⟨2, by decide, by decide, Prod.ext (by decide +kernel) rfl⟩
    (Trace.of_run (by decide +kernel))).mpr (by decide +kernel)).1

/-- `init` forks in vain, kills the pid that was given out for it, and forks again. -/
def killStalePid : List Call :=
  [.act (.schedule 0), .act (.fork 0 true false), .kill 0 2, .act (.fork 0 true true)]

/-- The free slot keeps pid 2, the `kill` succeeds, and the second child starts
killed. -/
theorem not_cleanSlots_killStalePid : Booted (userinit (Sched.boot 1)).2 ∧
    Trace CallStep (userinit (Sched.boot 1)).2
      (Trace.run Call.exec (userinit (Sched.boot 1)).2 killStalePid) ∧
    ¬Trace.Always CleanSlots (userinit (Sched.boot 1)).2
      (Trace.run Call.exec (userinit (Sched.boot 1)).2 killStalePid) ∧
    ((Trace.run Call.exec (userinit (Sched.boot 1)).2 killStalePid).map fun x =>
      ((x.2.proc 1).state, (x.2.proc 1).pid, (x.2.proc 1).killed)) =
      [(.unused, 0, false), (.unused, 2, false), (.unused, 2, true), (.runnable, 3, true)] := by
  refine ⟨⟨1, by decide, by decide, Prod.ext (by decide +kernel) rfl⟩,
    Trace.of_run (by decide +kernel), fun h => ?_, by decide +kernel⟩
  have hlast := h.2 _ (List.getElem_mem (by decide :
    1 < (Trace.run Call.exec (userinit (Sched.boot 1)).2 killStalePid).length)) 1
    (by decide +kernel)
  exact absurd hlast.1 (by decide +kernel)

end Xv6Rework
