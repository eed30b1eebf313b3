import Xv6Rework.Sched.Partition

/-!
# Process ids

`allocproc` gives out `nextpid` and counts it up.  `exit` sets `nextpid` back to
the pid of the process that ends, whose slot stays in use until its parent
waits for it, and with it every pid given out later.  So pids are unique in all
states of a run exactly as long as no process exits and the counter does not
run into a live pid by wrapping around.
-/

namespace Xv6Rework

open Prog

variable {s s' : Sched} {a a' : Abs} {p np : PId}

/-- Slots in use have different pids, and `nextpid` is none of them. -/
structure PidsUnique (s : Sched) : Prop where
  unique : ∀ p p', (s.proc p).state ≠ .unused → (s.proc p').state ≠ .unused →
    (s.proc p).pid = (s.proc p').pid → p = p'
  next_fresh : ∀ p, (s.proc p).state ≠ .unused → (s.proc p).pid ≠ s.nextpid

/-- The step is not an `exit`, and no `fork` that finds a free slot moves `nextpid`
to a pid in use. -/
def KeepsPidsFresh (s : Sched) : Act → Prop
  | .exit _ => False
  | .fork .. => (∃ p, (s.proc p).state = .unused) →
      ∀ p, (s.proc p).state ≠ .unused → (s.proc p).pid ≠ s.nextpid + 1
  | _ => True

/-- `PidsUnique` of an abstract state. -/
structure Abs.PidsUnique (a : Abs) : Prop where
  unique : ∀ p p', (a.task p).state ≠ .unused → (a.task p').state ≠ .unused →
    (a.task p).pid = (a.task p').pid → p = p'
  next_fresh : ∀ p, (a.task p).state ≠ .unused → (a.task p).pid ≠ a.env.nextpid

theorem Sim.pidsUnique_iff (h : Sim s a) : PidsUnique s ↔ a.PidsUnique := by
  constructor
  · rintro ⟨hu, hn⟩
    simp only [h.task_eq, h.env_eq] at hu hn
    exact ⟨hu, hn⟩
  · rintro ⟨hu, hn⟩
    refine ⟨?_, ?_⟩ <;> simp only [h.task_eq, h.env_eq]
    · exact hu
    · exact hn

theorem Abs.SameIds.pidsUnique (h : a.SameIds a') (hu : a.PidsUnique) : a'.PidsUnique := by
  have hlive : ∀ {p}, (a'.task p).state ≠ .unused → (a.task p).state ≠ .unused := fun {p} hp =>
    (h.same p).unused_iff.not.mp hp
  refine ⟨fun p p' hp hp' he => hu.unique p p' (hlive hp) (hlive hp') ?_, fun p hp => ?_⟩
  · rw [← (h.same p).pid_eq, ← (h.same p').pid_eq]; exact he
  · rw [(h.same p).pid_eq, h.nextpid_eq]; exact hu.next_fresh p (hlive hp)

/-- Freeing a slot makes no two pids equal. -/
theorem Abs.Freed.pidsUnique (h : a.Freed a' p) (hu : a.PidsUnique) : a'.PidsUnique := by
  have hne : ∀ {x}, (a'.task x).state ≠ .unused → x ≠ p := by
    rintro x hx rfl
    exact hx h.unused
  have hlive : ∀ {x}, (a'.task x).state ≠ .unused →
      (a'.task x).pid = (a.task x).pid ∧ (a.task x).state ≠ .unused := fun {x} hx =>
    ⟨(h.same x (hne hx)).pid_eq, (h.same x (hne hx)).unused_iff.not.mp hx⟩
  refine ⟨fun x x' hx hx' he => hu.unique x x' (hlive hx).2 (hlive hx').2 ?_, fun x hx => ?_⟩
  · rw [← (hlive hx).1, ← (hlive hx').1]; exact he
  · rw [(hlive hx).1, h.nextpid_eq]; exact hu.next_fresh x (hlive hx).2

theorem pid_ne_succ (pid : Int32) : pid ≠ pid + 1 := by
  intro h
  have hone : (1 : Int32).toBitVec = 1#32 := rfl
  have := congrArg Int32.toBitVec h
  rw [Int32.toBitVec_add, hone] at this
  bv_omega

/-- Allocation keeps pids unique exactly if the new `nextpid` is fresh. -/
theorem Abs.Allocated.pidsUnique_iff {parent : Option PId} {made : Bool}
    (h : a.Allocated a' np parent made) (hu : a.PidsUnique) :
    a'.PidsUnique ↔ ∀ p, (a.task p).state ≠ .unused → (a.task p).pid ≠ a.env.nextpid + 1 := by
  have hne : ∀ {x}, (a.task x).state ≠ .unused → x ≠ np := by
    rintro x hx rfl
    exact hx h.unused
  constructor
  · intro hu' p hp
    have hs := h.same p (hne hp)
    rw [← hs.pid_eq, ← h.nextpid_eq]
    exact hu'.next_fresh p (hs.unused_iff.not.mpr hp)
  · intro hfresh
    -- a slot in use is `np` with the pid just given out, or an old one
    have hcases : ∀ {x}, (a'.task x).state ≠ .unused →
        (x = np ∧ (a'.task x).pid = a.env.nextpid) ∨
          ((a'.task x).pid = (a.task x).pid ∧ (a.task x).state ≠ .unused) := by
      intro x hx
      by_cases e : x = np
      · subst e
        exact .inl ⟨rfl, h.pid_eq⟩
      · exact .inr ⟨(h.same x e).pid_eq, (h.same x e).unused_iff.not.mp hx⟩
    refine ⟨fun x x' hx hx' he => ?_, fun x hx => ?_⟩
    · rcases hcases hx with ⟨rfl, hp⟩ | ⟨hp, hl⟩ <;> rcases hcases hx' with ⟨rfl, hp'⟩ | ⟨hp', hl'⟩
      · rfl
      · exact absurd (hp'.symm.trans (he.symm.trans hp)) (hu.next_fresh x' hl')
      · exact absurd (hp.symm.trans (he.trans hp')) (hu.next_fresh x hl)
      · exact hu.unique x x' hl hl' (hp.symm.trans (he.trans hp'))
    · rw [h.nextpid_eq]
      rcases hcases hx with ⟨-, hp⟩ | ⟨hp, hl⟩
      · rw [hp]; exact pid_ne_succ _
      · rw [hp]; exact hfresh x hl

/-- One step keeps pids unique exactly if it keeps them fresh. -/
theorem Step.pidsUnique_iff {act : Act} (hc : Consistent s) (hu : PidsUnique s)
    (hs : Step s act s') : PidsUnique s' ↔ KeepsPidsFresh s act := by
  obtain ⟨a, h, hi⟩ := hc
  obtain ⟨a', h', -, hid⟩ := hs.spec h hi
  rw [h.pidsUnique_iff] at hu
  rw [h'.pidsUnique_iff]
  cases act with
  | fork c kalloc copyuvm =>
    simp only [KeepsPidsFresh, h.task_eq, h.env_eq]
    obtain ⟨_, -, -, hid⟩ := hid
    split at hid
    · next hfull =>
      have hnone : ∀ p, (a.task p).state ≠ .unused := fun p => by
        simpa using List.find?_eq_none.mp hfull p (List.mem_finRange p)
      exact ⟨fun _ ⟨p, hp⟩ => absurd hp (hnone p), fun _ => hid.pidsUnique hu⟩
    · next np _ =>
      rw [hid.pidsUnique_iff hu]
      exact ⟨fun hf _ => hf, fun hf => hf ⟨np, hid.unused⟩⟩
  | wait c =>
    refine iff_of_true ?_ trivial
    obtain ⟨_, -, hid⟩ := hid
    split at hid
    · exact hid.pidsUnique hu
    · exact hid.pidsUnique hu
  | exit c =>
    obtain ⟨p, -, hid⟩ := hid
    exact iff_of_false (fun hu' => hu'.next_fresh p (by simp [hid.zombie]) hid.nextpid_eq.symm) id
  | _ => exact iff_of_true (Abs.SameIds.pidsUnique hid hu) trivial

/-- The first process has pid 1, and 2 is next. -/
theorem Booted.pidsUnique (h : Booted s) : PidsUnique s := by
  obtain ⟨ncpu, -, -, hs⟩ := h
  obtain ⟨a, h, -, np, -, halloc⟩ := of_leads ⟨_, userinit_leads False ncpu⟩ hs
  have hboot : (Abs.boot ncpu).PidsUnique :=
    ⟨fun p p' hp => absurd rfl hp, fun p hp => absurd rfl hp⟩
  exact h.pidsUnique_iff.mpr ((halloc.pidsUnique_iff hboot).mpr fun p hp => absurd rfl hp)

/-- Pids are unique in every state of a run exactly if no step of the run is an
`exit` or lets `nextpid` wrap around to a pid in use. -/
theorem pidsUnique_always_iff {l : List (Act × Sched)} (h0 : Booted s) (h : Trace Step s l) :
    Trace.Always PidsUnique s l ↔ Trace.Meets KeepsPidsFresh s l :=
  h.always_iff_meets Consistent (fun _ _ _ hc _ _ hs => hs.consistent hc)
    (fun _ _ _ hc hu hs => hs.pidsUnique_iff hc hu) (Reachable.consistent (.init h0))
    h0.pidsUnique

/-- A run that forks, reaps nothing and exits nowhere. -/
theorem pidsUnique_always_two_forks :
    Trace.Always PidsUnique (userinit (Sched.boot 2)).2
      (Trace.run exec (userinit (Sched.boot 2)).2
        [.schedule 0, .fork 0 true true, .fork 0 false true, .wait 0]) :=
  (pidsUnique_always_iff ⟨2, by decide, by decide, Prod.ext (by decide +kernel) rfl⟩
    (Trace.of_run (by decide +kernel))).mpr
    ⟨trivial, fun _ => by decide +kernel, fun _ => by decide +kernel, trivial, trivial⟩

/-- A child ends, and its parent forks again before it waits. -/
def forkAfterExit : List Act :=
  [.schedule 0, .fork 0 true true, .schedule 1, .exit 1, .fork 0 true true]

/-- The new child gets the pid of the zombie. -/
theorem not_pidsUnique_forkAfterExit : Booted (userinit (Sched.boot 2)).2 ∧
    Trace Step (userinit (Sched.boot 2)).2
      (Trace.run exec (userinit (Sched.boot 2)).2 forkAfterExit) ∧
    ¬Trace.Always PidsUnique (userinit (Sched.boot 2)).2
      (Trace.run exec (userinit (Sched.boot 2)).2 forkAfterExit) := by
  refine ⟨⟨2, by decide, by decide, Prod.ext (by decide +kernel) rfl⟩,
    Trace.of_run (by decide +kernel), fun h => ?_⟩
  have hlast := h.2 _ (List.getElem_mem (by decide :
    4 < (Trace.run exec (userinit (Sched.boot 2)).2 forkAfterExit).length))
  have := hlast.unique ⟨1, by decide⟩ ⟨2, by decide⟩ (by decide +kernel) (by decide +kernel)
    (by decide +kernel)
  exact absurd this (by decide)

end Xv6Rework
