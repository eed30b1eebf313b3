import Xv6Rework.Kernel.Frames

/-!
# The process tree

What the operations of `Kernel/Proc.lean` do to the tree of processes: `fork` adds
a child, `exit` leaves a zombie and passes the children to `init`, and `wait` takes
out a zombie child of the caller.  Nothing else changes the tree.

From this follow, along every run: every process but `init` has a parent that has
not ended; a zombie stays until its current parent waits for it; and what `wait`
takes out was put there by one `exit`.
-/

namespace Xv6Rework.Kernel

open Prog Vm

variable {I : Layout} {k k' : Kernel} {a a' : Abs} {s s' : Sched} {c : CpuId} {p q x : PId}

/-! ## The scheduler's half of an operation -/

theorem onMem_keeps {α : Type} {y : MemM α} : Keeps (Same Kernel.sched) (onMem y) := by
  intro k r k' h
  exact (congrArg (fun z => z.2.sched) h).symm

theorem deref_keeps {y : Option Nat} : Keeps (Same Kernel.sched) (deref y) := by
  cases y with
  | none => exact .halt
  | some f => exact .pure

theorem growproc_keeps {n : Int} : Keeps (Same Kernel.sched) (growproc I p n) :=
  have hset : ∀ sz : Nat, Keeps (Same Kernel.sched) (do
      if sz = 0 then
        pure false
      else
        update fun k : Kernel => k.setSz p sz
        pure true) := fun _ => .ite .pure (.bind (.update fun _ => rfl) fun _ => .pure)
  .bind .gets fun _ => .bind .gets fun _ => .bind deref_keeps fun _ =>
    .ite (.bind onMem_keeps hset) (.ite (.bind onMem_keeps hset) .pure)

theorem exec_keeps {img : Image} : Keeps (Same Kernel.sched) (exec I p img) := by
  refine .ite .pure (.ite .halt (.bind onMem_keeps fun r => ?_))
  cases r with
  | none => exact .pure
  | some r =>
    exact .bind .gets fun _ => .bind (.update fun _ => rfl) fun _ => .bind (.update fun _ => rfl)
      fun _ =>
      .bind onMem_keeps fun _ => .pure

theorem pipealloc_keeps : Keeps (Same Kernel.sched) pipealloc := by
  refine .bind onMem_keeps fun r => ?_
  cases r with
  | none => exact .pure
  | some f => exact .bind (.update fun _ => rfl) fun _ => .pure

theorem pipeclose_keeps {f : Nat} {writable : Bool} :
    Keeps (Same Kernel.sched) (pipeclose I f writable) := by
  refine .bind .gets fun r => ?_
  cases r with
  | none => exact .stop
  | some e => exact .ite (.bind (.update fun _ => rfl) fun _ => onMem_keeps) (.update fun _ => rfl)

/-- What an operation does to the scheduler's state. -/
def OnSched (s s' : Sched) : Op → Prop
  | .sched call => isPlain call = true ∧ CallStep s call s'
  | .fork c => ∃ kalloc copyuvm, Xv6Rework.Step s (.fork c kalloc copyuvm) s'
  | .wait c => Xv6Rework.Step s (.wait c) s'
  | _ => s' = s

theorem wlp_onSched {α : Type} {y : SchedM α} {Q : α → Kernel → Prop} :
    wlp (onSched y) Q k ↔ wlp y (fun r s => Q r { k with sched := s }) k.sched := wlp_zoom

/-- Code that leaves the scheduler's state alone. -/
theorem wlp_quiet {α : Type} {y : KernelM α} (hy : Keeps (Same Kernel.sched) y)
    {Q : α → Kernel → Prop} (hQ : ∀ r k', k'.sched = k.sched → Q r k') : wlp y Q k :=
  hy.wlp hQ

theorem fork_sched :
    wlp (fork I p) (fun _ k' => ∃ kalloc copyuvm r,
      Xv6Rework.fork p kalloc copyuvm k.sched = (.ok r, k'.sched)) k := by
  -- the scheduler's half runs last
  have hend : ∀ (kalloc copyuvm : Bool) (k1 : Kernel), k1.sched = k.sched →
      wlp (onSched (Xv6Rework.fork p kalloc copyuvm)) (fun _ k' => ∃ kalloc copyuvm r,
        Xv6Rework.fork p kalloc copyuvm k.sched = (.ok r, k'.sched)) k1 := fun ka cu k1 h1 =>
    wlp_onSched.mpr fun r s' hs' => ⟨ka, cu, r, h1 ▸ hs'⟩
  simp only [fork, wlp_bind, wlp_gets]
  split
  · exact hend _ _ k rfl
  rw [wlp_bind]
  refine wlp_quiet onMem_keeps fun r k1 h1 => ?_
  simp only [wlp_bind, wlp_update]
  cases r with
  | none => exact hend _ _ _ h1
  | some f =>
    simp only [wlp_bind, wlp_gets, wlp_update]
    refine wlp_quiet deref_keeps fun d k2 h2 => wlp_quiet onMem_keeps fun r k3 h3 => ?_
    have h3' : k3.sched = k.sched := h3.trans (h2.trans h1)
    cases r with
    | none =>
      simp only [wlp_bind, wlp_update]
      exact wlp_quiet onMem_keeps fun _ k4 h4 => hend _ _ _ (h4.trans h3')
    | some d =>
      simp only [wlp_bind, wlp_update]
      exact hend _ _ _ h3'

theorem wait_sched :
    wlp (wait I c p) (fun r k' => Xv6Rework.wait c p k.sched = (.ok r, k'.sched)) k := by
  have hend : ∀ k1 : Kernel, k1.sched = k.sched → wlp (onSched (Xv6Rework.wait c p))
      (fun r k' => Xv6Rework.wait c p k.sched = (.ok r, k'.sched)) k1 := fun k1 h1 =>
    wlp_onSched.mpr fun r s' hs' => h1 ▸ hs'
  simp only [wait, wlp_bind, wlp_gets]
  split
  · exact hend k rfl
  next x _ =>
    simp only [wlp_bind, wlp_gets]
    cases k.kstack x with
    | none => simp
    | some f =>
      rw [wlp_bind]
      refine wlp_quiet onMem_keeps fun _ k1 h1 => ?_
      simp only [wlp_bind, wlp_update, wlp_gets]
      exact wlp_quiet onMem_keeps fun _ k2 h2 => hend k2 (h2.trans h1)

/-- `myproc` changes nothing. -/
theorem of_onMyproc_ok {f : PId → KernelM Unit}
    (h : (onSched (myproc c) >>= f) k = (.ok (), k')) :
    ∃ p, k.sched.runningOn c = some p ∧ f p k = (.ok (), k') := by
  obtain ⟨p, k1, hp, hf⟩ := bind_eq_ok h
  rcases hr : k.sched.runningOn c with _ | q
  · simp [onSched, zoom, myproc, hr] at hp
  · have hq : onSched (myproc c) k = (.ok q, k) := by simp [onSched, zoom, myproc, hr]
    cases hq.symm.trans hp
    exact ⟨p, rfl, hf⟩

theorem Step.onSched {y : Op × List Bool} (hs : Step I k y k') :
    OnSched k.sched k'.sched y.1 := by
  obtain ⟨op, deny⟩ := y
  obtain ⟨_, k1, hk1, hs⟩ := bind_eq_ok hs
  have h1 : k1.sched = k.sched := by cases hk1; rfl
  clear hk1
  rw [← h1]
  cases op with
  | sched call =>
    simp only [Op.code] at hs
    split at hs
    · next hc => exact ⟨hc, (wlp_onSched (Q := fun _ k' => CallStep k1.sched call k'.sched)).mpr
        (fun _ _ h => h) () k' hs⟩
    · cases hs
  | fork c =>
    obtain ⟨p, hp, hs⟩ := of_onMyproc_ok hs
    obtain ⟨r, k2, hf, hs⟩ := bind_eq_ok hs
    cases hs
    obtain ⟨ka, cu, r', h'⟩ := fork_sched r k' hf
    refine ⟨ka, cu, ?_⟩
    rw [Xv6Rework.Step, Xv6Rework.exec, bind_of_ok (myproc_ok hp), bind_of_ok h']
    rfl
  | wait c =>
    obtain ⟨p, hp, hs⟩ := of_onMyproc_ok hs
    obtain ⟨r, k2, hf, hs⟩ := bind_eq_ok hs
    cases hs
    have h' := wait_sched r k' hf
    rw [OnSched, Xv6Rework.Step, Xv6Rework.exec, bind_of_ok (myproc_ok hp), bind_of_ok h']
    rfl
  | sbrk c n =>
    obtain ⟨p, hp, hs⟩ := of_onMyproc_ok hs
    obtain ⟨r, k2, hf, hs⟩ := bind_eq_ok hs
    cases hs
    exact growproc_keeps _ r k' hf
  | exec c img =>
    obtain ⟨p, hp, hs⟩ := of_onMyproc_ok hs
    obtain ⟨r, k2, hf, hs⟩ := bind_eq_ok hs
    cases hs
    exact exec_keeps _ r k' hf
  | pipe c =>
    obtain ⟨p, hp, hs⟩ := of_onMyproc_ok hs
    obtain ⟨r, k2, hf, hs⟩ := bind_eq_ok hs
    cases hs
    exact pipealloc_keeps _ r k' hf
  | pipeclose c f writable =>
    obtain ⟨p, hp, hs⟩ := of_onMyproc_ok hs
    exact pipeclose_keeps _ () k' hs

/-! ## What happens to the tree -/

/-- A change of the tree of processes. -/
inductive Event where
  | quiet
  | forked (p x : PId)
  | exited (p : PId)
  | reported (p x : PId)

/-- The slot `x` is free, or a zombie, in both states or in neither. -/
def SameStage (s s' : Sched) (x : PId) : Prop :=
  ((s'.proc x).state = .unused ↔ (s.proc x).state = .unused) ∧
    ((s'.proc x).state = .zombie ↔ (s.proc x).state = .zombie)

/-- The slot `x` also has the same parent. -/
def SameSlot (s s' : Sched) (x : PId) : Prop :=
  SameStage s s' x ∧ (s'.proc x).parent = (s.proc x).parent

/-- How the tree changes. -/
def Follows (s s' : Sched) : Event → Prop
  | .quiet => ∀ y, SameSlot s s' y
  | .forked p x => (s.proc p).state.Live ∧ (s.proc x).state = .unused ∧ (s'.proc x).state.Live ∧
      (s'.proc x).parent = some p ∧ ∀ y, y ≠ x → SameSlot s s' y
  | .exited p => (s.proc p).state.Live ∧ s.initproc ≠ some p ∧ (s'.proc p).state = .zombie ∧
      (∀ y, y ≠ p → SameStage s s' y) ∧
      ∀ y, (s'.proc y).parent = if (s.proc y).parent = some p then s.initproc else (s.proc y).parent
  | .reported p x => (s.proc p).state.Live ∧ (s.proc x).state = .zombie ∧
      (s.proc x).parent = some p ∧ (s'.proc x).state = .unused ∧ ∀ y, y ≠ x → SameSlot s s' y

/-- Which operation makes a change, and who calls it. -/
def Event.Of (s : Sched) (op : Op) : Event → Prop
  | .quiet => ∀ c, op ≠ .sched (.act (.exit c))
  | .forked p _ => ∃ c, op = .fork c ∧ s.runningOn c = some p
  | .exited p => ∃ c, op = .sched (.act (.exit c)) ∧ s.runningOn c = some p
  | .reported p _ => ∃ c, op = .wait c ∧ s.runningOn c = some p

theorem SameSlot.refl (s : Sched) (x : PId) : SameSlot s s x := ⟨⟨Iff.rfl, Iff.rfl⟩, rfl⟩

theorem SameStage.live_iff (h : SameStage s s' x) :
    (s'.proc x).state.Live ↔ (s.proc x).state.Live := and_congr h.1.not h.2.not

theorem sameStage_of_sim (h : Sim s a) (h' : Sim s' a') (hid : a.SameId a' x) :
    SameStage s s' x := by
  rw [SameStage, h.task_eq, h'.task_eq]
  exact ⟨hid.unused_iff, hid.zombie_iff⟩

theorem sameSlot_of_sim (h : Sim s a) (h' : Sim s' a') (hid : a.SameId a' x)
    (hpar : (a'.task x).parent = (a.task x).parent) : SameSlot s s' x :=
  ⟨sameStage_of_sim h h' hid, by rw [h.task_eq, h'.task_eq, hpar]⟩

/-- A step of the scheduler that leaves all processes as they are. -/
theorem SameIds.follows (h : Sim s a) (h' : Sim s' a') (hids : a.SameIds a') :
    s'.initproc = s.initproc ∧ Follows s s' .quiet := by
  refine ⟨?_, fun y => sameSlot_of_sim h h' (hids.same y) (hids.parent_eq y)⟩
  rw [h.env_eq, h'.env_eq, hids.initproc_eq]

theorem Step.follows {y : Op × List Bool} (hs : Step I k y k') (hb : Balanced I k) :
    k'.sched.initproc = k.sched.initproc ∧
      ∃ ev, Follows k.sched k'.sched ev ∧ ev.Of k.sched y.1 := by
  obtain ⟨a, K, V, h, hi, -, -⟩ := hb
  have hs := hs.onSched
  obtain ⟨op, deny⟩ := y
  have hlive : ∀ {c p}, a.env.runningOn c = some p → (k.sched.proc p).state.Live := by
    intro c p hp
    rw [h.task_eq, (hi.running_iff p).mpr ⟨c, hp⟩]
    decide
  cases op with
  | sched call =>
    obtain ⟨hc, hs⟩ := hs
    cases call with
    | act act =>
      obtain ⟨a', h', hi', hids⟩ := Xv6Rework.Step.spec hs h hi
      cases act with
      | fork c _ _ => cases hc
      | wait c => cases hc
      | exit c =>
        obtain ⟨p, hp, hend⟩ := hids
        refine ⟨by rw [h.env_eq, h'.env_eq, hend.initproc_eq], .exited p,
          ⟨hlive hp, by rw [h.env_eq]; exact hend.not_init, by rw [h'.task_eq]; exact hend.zombie,
            fun y hy => sameStage_of_sim h h' (hend.same y hy), fun y => ?_⟩,
          c, rfl, by rw [h.env_eq]; exact hp⟩
        rw [h.task_eq, h'.task_eq, h.env_eq]
        exact hend.parent_eq y
      | _ =>
        exact ⟨(SameIds.follows h h' hids).1, .quiet, (SameIds.follows h h' hids).2,
          fun _ => (by rintro ⟨⟩)⟩
    | kill c pid =>
      obtain ⟨r, t, hx, hs⟩ := bind_eq_ok (of_myproc_then hs)
      cases hs
      rw [kill_eq] at hx
      split at hx
      · rw [← (Prod.mk.inj hx).2]
        exact ⟨rfl, .quiet, fun y => .refl _ y, fun _ => (by rintro ⟨⟩)⟩
      · next q _ =>
        rw [← (Prod.mk.inj hx).2]
        refine ⟨rfl, .quiet, fun y => ?_, fun _ => (by rintro ⟨⟩)⟩
        by_cases e : y = q
        · subst e
          by_cases hsl : (k.sched.proc y).state = .sleeping <;>
            simp [SameSlot, SameStage, Task.kill, hsl]
        · rw [SameSlot, SameStage, Sched.setProc_proc, if_neg e]
          exact SameSlot.refl _ y
    | sig c mask pid => cases hc
  | fork c =>
    obtain ⟨ka, cu, hs⟩ := hs
    obtain ⟨a', h', hi', p, hp, hinit, hids⟩ := Xv6Rework.Step.spec hs h hi
    refine ⟨by rw [h.env_eq, h'.env_eq, hinit], ?_⟩
    split at hids
    · exact ⟨.quiet, (SameIds.follows h h' hids).2, fun _ => (by rintro ⟨⟩)⟩
    · next np hnp =>
      have ho := hids.outcome
      have hother : ∀ y, y ≠ np → SameSlot k.sched k'.sched y := fun y hy =>
        sameSlot_of_sim h h' (hids.same y hy) (hids.parent_eq y hy)
      split at ho
      · refine ⟨.forked p np, ⟨hlive hp, by rw [h.task_eq]; exact hids.unused, ?_, ?_, hother⟩,
          c, rfl, by rw [h.env_eq]; exact hp⟩
        · rw [h'.task_eq, ho.1]; decide
        · rw [h'.task_eq]; exact ho.2
      · refine ⟨.quiet, fun y => ?_, fun _ => (by rintro ⟨⟩)⟩
        by_cases e : y = np
        · subst e
          rw [SameSlot, SameStage, h.task_eq, h'.task_eq, ho.1, ho.2, hids.unused]
          simp
        · exact hother y e
  | wait c =>
    obtain ⟨a', h', hi', p, hp, hids⟩ := Xv6Rework.Step.spec hs h hi
    split at hids
    · exact ⟨(SameIds.follows h h' hids).1, .quiet, (SameIds.follows h h' hids).2,
        fun _ => (by rintro ⟨⟩)⟩
    · next x hx =>
      have hz := List.find?_some hx
      simp only [Bool.and_eq_true, decide_eq_true_eq] at hz
      refine ⟨by rw [h.env_eq, h'.env_eq, hids.initproc_eq], .reported p x,
        ⟨hlive hp, by rw [h.task_eq]; exact hz.2, by rw [h.task_eq]; exact hz.1,
          by rw [h'.task_eq]; exact hids.unused, fun y hy =>
            sameSlot_of_sim h h' (hids.same y hy) (hids.parent_eq y hy)⟩,
        c, rfl, by rw [h.env_eq]; exact hp⟩
  | _ =>
    have e : k'.sched = k.sched := hs
    rw [e]
    exact ⟨rfl, .quiet, fun y => .refl _ y, fun _ => (by rintro ⟨⟩)⟩

/-! ## Parents -/

/-- `init` has not ended, and every other process has a parent that has not. -/
structure Rooted (s : Sched) : Prop where
  init : ∃ i, s.initproc = some i ∧ (s.proc i).state.Live
  parent : ∀ p, (s.proc p).state ≠ .unused → s.initproc ≠ some p →
    ∃ q, (s.proc p).parent = some q ∧ (s.proc q).state.Live

theorem Follows.rooted {ev : Event} (h : Follows s s' ev) (hinit : s'.initproc = s.initproc)
    (hr : Rooted s) : Rooted s' := by
  obtain ⟨⟨i, hi, hil⟩, hpar⟩ := hr
  cases ev with
  | quiet =>
    refine ⟨⟨i, hinit.trans hi, (h i).1.live_iff.mpr hil⟩, fun p hp hne => ?_⟩
    obtain ⟨q, hq, hql⟩ := hpar p (mt (h p).1.1.mpr hp) (hinit ▸ hne)
    exact ⟨q, (h p).2.trans hq, (h q).1.live_iff.mpr hql⟩
  | forked p x =>
    obtain ⟨hp, hx, hx', hxp, hsame⟩ := h
    have hlive : ∀ q, (s.proc q).state.Live → (s'.proc q).state.Live := by
      intro q hq
      by_cases e : q = x
      · exact e ▸ hx'
      · exact (hsame q e).1.live_iff.mpr hq
    refine ⟨⟨i, hinit.trans hi, hlive i hil⟩, fun y hy hne => ?_⟩
    by_cases e : y = x
    · exact ⟨p, e ▸ hxp, hlive p hp⟩
    · obtain ⟨q, hq, hql⟩ := hpar y (mt (hsame y e).1.1.mpr hy) (hinit ▸ hne)
      exact ⟨q, (hsame y e).2.trans hq, hlive q hql⟩
  | exited p =>
    obtain ⟨hp, hne, hz, hstage, hpar'⟩ := h
    have hip : i ≠ p := by rintro rfl; exact hne hi
    refine ⟨⟨i, hinit.trans hi, (hstage i hip).live_iff.mpr hil⟩, fun y hy hyi => ?_⟩
    have hy' : (s.proc y).state ≠ .unused := by
      by_cases e : y = p
      · exact e ▸ hp.1
      · exact mt (hstage y e).1.mpr hy
    obtain ⟨q, hq, hql⟩ := hpar y hy' (hinit ▸ hyi)
    rw [hpar' y]
    split
    · exact ⟨i, hi, (hstage i hip).live_iff.mpr hil⟩
    · next hn =>
      have hqp : q ≠ p := by rintro rfl; exact hn hq
      exact ⟨q, hq, (hstage q hqp).live_iff.mpr hql⟩
  | reported p x =>
    obtain ⟨hp, hx, hxp, hx', hsame⟩ := h
    -- a zombie is nobody's parent
    have hlive : ∀ q, (s.proc q).state.Live → (s'.proc q).state.Live := by
      intro q hq
      have e : q ≠ x := by rintro rfl; exact hq.2 hx
      exact (hsame q e).1.live_iff.mpr hq
    refine ⟨⟨i, hinit.trans hi, hlive i hil⟩, fun y hy hne => ?_⟩
    have e : y ≠ x := by rintro rfl; exact hy hx'
    obtain ⟨q, hq, hql⟩ := hpar y (mt (hsame y e).1.1.mpr hy) (hinit ▸ hne)
    exact ⟨q, (hsame y e).2.trans hq, hlive q hql⟩

/-- `main` leaves the scheduler's state as its own `userinit` does. -/
theorem Booted.sched (h : Booted I k) : Xv6Rework.Booted k.sched := by
  obtain ⟨ncpu, initcode, hn, hn', hmain, -⟩ := h
  have hstack : ∀ n, Keeps (Same Kernel.sched) (startothers n) := by
    intro n
    induction n with
    | zero => exact .pure
    | succ n ih =>
      refine .bind onMem_keeps fun r => ?_
      cases r with
      | none => exact .bind .halt fun _ => ih
      | some f => exact .bind (.update fun _ => rfl) fun _ => ih
  have hwlp : wlp (main I ncpu initcode) (fun _ k' => Xv6Rework.userinit (Sched.boot ncpu) =
      (.ok (), k'.sched)) (load ncpu) := by
    simp only [main, kvmalloc, userinit, wlp_bind, wlp_update]
    refine wlp_quiet onMem_keeps fun _ k1 h1 => wlp_quiet onMem_keeps fun _ k2 h2 =>
      wlp_quiet (hstack _) fun _ k3 h3 => wlp_quiet onMem_keeps fun _ k4 h4 =>
      wlp_onSched.mpr fun _ s' hs' => ?_
    have hk4 : k4.sched = Sched.boot ncpu := h4.trans (h3.trans (h2.trans h1))
    simp only [wlp_gets]
    split
    · simp
    · simp only [wlp_bind, wlp_update]
      refine wlp_quiet onMem_keeps fun _ k5 h5 => wlp_quiet deref_keeps fun _ k6 h6 =>
        wlp_quiet onMem_keeps fun r k7 h7 => ?_
      cases r with
      | none => simp
      | some d =>
        simp only [wlp_bind, wlp_update]
        refine wlp_quiet onMem_keeps fun _ k8 h8 => ?_
        have hk8 : k8.sched = s' := h8.trans (h7.trans (h6.trans h5))
        change _ = (_, k8.sched)
        rw [hk8, ← hk4, hs']
  exact ⟨ncpu, hn, hn', hwlp () k hmain⟩

theorem Booted.rooted (h : Booted I k) : Rooted k.sched := by
  obtain ⟨ncpu, -, -, hs⟩ := h.sched
  obtain ⟨a, hsim, -, np, hinit, halloc⟩ := of_leads ⟨_, userinit_leads False ncpu⟩ hs
  have ho := halloc.outcome
  rw [if_pos rfl] at ho
  refine ⟨⟨np, by rw [hsim.env_eq, hinit], by rw [hsim.task_eq, ho.1]; decide⟩, fun p hp hne => ?_⟩
  rw [hsim.env_eq, hinit] at hne
  have e : p ≠ np := by rintro rfl; exact hne rfl
  rw [hsim.task_eq] at hp
  exact absurd ((halloc.same p e).unused_iff.mpr rfl) hp

theorem Reach.rooted (h : Reach (Booted I) (Step I) k) : Rooted k.sched := by
  induction h with
  | init h => exact h.rooted
  | step h hs ih =>
    obtain ⟨hinit, ev, hev, -⟩ := Step.follows hs (Reach.balanced h)
    exact hev.rooted hinit ih

/-! ## Exits and reports -/

/-- The step is an `exit` of the process `x`. -/
def exits (x : PId) (k : Kernel) (y : Op × List Bool) (_ : Kernel) : Bool :=
  match y.1 with
  | .sched (.act (.exit c)) => decide (k.sched.runningOn c = some x)
  | _ => false

/-- The step is a `wait` that takes the zombie `x` out. -/
def reports (x : PId) (k : Kernel) (y : Op × List Bool) (k' : Kernel) : Bool :=
  match y.1 with
  | .wait _ =>
    decide ((k.sched.proc x).state = .zombie) && decide ((k'.sched.proc x).state = .unused)
  | _ => false

/-- Whether the slot `x` is a zombie. -/
def zombie (k : Kernel) (x : PId) : Bool := decide ((k.sched.proc x).state = .zombie)

theorem exits_eq_true {y : Op × List Bool} :
    exits x k y k' = true ↔ Event.Of k.sched y.1 (.exited x) := by
  simp only [exits, Event.Of]
  split
  · next c h => simp [h]
  · next h => simp only [Bool.false_eq_true, false_iff]; rintro ⟨c, hc, -⟩; exact h c hc

theorem Event.Of.not_exits {y : Op × List Bool} {ev : Event} (h : ev.Of k.sched y.1)
    (hne : ev ≠ .exited x) : exits x k y k' = false := by
  by_contra hn
  obtain ⟨c, hc, hx⟩ := exits_eq_true.mp (Bool.not_eq_false _ ▸ hn)
  cases ev with
  | quiet => exact h c hc
  | forked p z => obtain ⟨c', hc', -⟩ := h; rw [hc] at hc'; cases hc'
  | exited p =>
    obtain ⟨c', hc', hp⟩ := h
    rw [hc] at hc'
    cases hc'
    exact hne (congrArg _ (Option.some.inj (hp.symm.trans hx)))
  | reported p z => obtain ⟨c', hc', -⟩ := h; rw [hc] at hc'; cases hc'

/-- What a step means for the slot `x`: its process ends, it is taken out by its
parent, or it stays as it is, except that the parent of a zombie changes to `init`
if the parent ends. -/
inductive Turn (k : Kernel) (y : Op × List Bool) (k' : Kernel) (x : PId) : Prop
  | exit (he : exits x k y k' = true) (hr : reports x k y k' = false) (hz : zombie k x = false)
      (hz' : zombie k' x = true)
  | report (he : exits x k y k' = false) (hr : reports x k y k' = true) (hz : zombie k x = true)
      (hz' : zombie k' x = false) (c : CpuId) (q : PId) (hop : y.1 = .wait c)
      (hq : k.sched.runningOn c = some q) (hpar : (k.sched.proc x).parent = some q)
      (hun : (k'.sched.proc x).state = .unused)
  | same (he : exits x k y k' = false) (hr : reports x k y k' = false)
      (hz' : zombie k' x = zombie k x)
      (hpar : zombie k x = true → ∀ q, (k.sched.proc x).parent = some q →
        (k'.sched.proc x).parent = if exits q k y k' then k.sched.initproc else some q)

theorem SameStage.zombie_eq (h : SameStage k.sched k'.sched x) : zombie k' x = zombie k x := by
  simp only [zombie, h.2]

theorem SameStage.not_reports {y : Op × List Bool} (h : SameStage k.sched k'.sched x) :
    reports x k y k' = false := by
  simp only [reports]
  split
  · by_cases hu : (k.sched.proc x).state = .zombie
    · have hn : (k'.sched.proc x).state ≠ .unused := by rw [h.2.mpr hu]; decide
      simp [hn]
    · simp [hu]
  · rfl

theorem Step.turn {y : Op × List Bool} (hs : Step I k y k') (hb : Balanced I k) (x : PId) :
    Turn k y k' x := by
  obtain ⟨-, ev, hev, hof⟩ := Step.follows hs hb
  -- a slot that is as it was
  have hsame : SameSlot k.sched k'.sched x → (∀ q, ev ≠ .exited q) → Turn k y k' x :=
    fun h hne => .same (hof.not_exits (hne x)) h.1.not_reports h.1.zombie_eq fun _ q hq => by
      rw [hof.not_exits (hne q), if_neg Bool.false_ne_true, h.2, hq]
  cases ev with
  | quiet => exact hsame (hev x) fun _ => (by rintro ⟨⟩)
  | forked p z =>
    obtain ⟨-, hz, hzl, -, hother⟩ := hev
    by_cases e : x = z
    · subst e
      have hzn : zombie k x = false := by simp [zombie, hz]
      refine .same (hof.not_exits (by rintro ⟨⟩)) ?_ ?_ fun h => by simp [hzn] at h
      · simp only [reports, hz]
        split <;> simp
      · rw [hzn, zombie, decide_eq_false hzl.2]
    · exact hsame (hother x e) fun _ => (by rintro ⟨⟩)
  | exited p =>
    obtain ⟨hp, -, hz, hstage, hpar⟩ := hev
    by_cases e : x = p
    · subst e
      refine .exit (exits_eq_true.mpr hof) ?_ ?_ ?_
      · simp only [reports, hz]
        split <;> simp
      · simp [zombie, hp.2]
      · simp [zombie, hz]
    · refine .same (hof.not_exits fun h => e (Event.exited.inj h).symm) (hstage x e).not_reports
        (hstage x e).zombie_eq fun _ q hq => ?_
      rw [hpar x, hq]
      by_cases eq : q = p
      · rw [if_pos (by rw [eq]), if_pos (exits_eq_true.mpr (eq ▸ hof))]
      · rw [if_neg fun h => eq (Option.some.inj h),
          hof.not_exits fun h => eq (Event.exited.inj h).symm, if_neg Bool.false_ne_true]
  | reported p z =>
    obtain ⟨-, hz, hzp, hz', hother⟩ := hev
    by_cases e : x = z
    · subst e
      obtain ⟨c, hop, hrun⟩ := hof
      refine .report ?_ ?_ (by simp [zombie, hz]) (by simp [zombie, hz']) c p hop hrun hzp hz'
      · simp [exits, hop]
      · simp [reports, hop, hz, hz']
    · exact hsame (hother x e) fun _ => (by rintro ⟨⟩)

variable {l : List ((Op × List Bool) × Kernel)}

/-- Each zombie is left by one `exit` and taken out by one `wait`. -/
theorem exits_eq_reports (h : Reach (Booted I) (Step I) k) (ht : Trace (Step I) k l) (x : PId) :
    (zombie k x).toNat + Trace.count (exits x) k l =
      Trace.count (reports x) k l + (zombie (Trace.last k l) x).toNat := by
  induction ht with
  | nil => simp [Trace.count, Trace.last]
  | @cons k k' y l hs _ ih =>
    have ih := ih (h.step hs)
    simp only [Trace.count, Trace.last]
    cases hs.turn (Reach.balanced h) x with
    | exit he hr hz hz' =>
      rw [hz', Bool.toNat_true] at ih
      rw [he, hr, hz, Bool.toNat_true, Bool.toNat_false]
      omega
    | report he hr hz hz' =>
      rw [hz', Bool.toNat_false] at ih
      rw [he, hr, hz, Bool.toNat_true, Bool.toNat_false]
      omega
    | same he hr hz' =>
      rw [hz'] at ih
      rw [he, hr, Bool.toNat_false]
      omega

/-- A zombie that is not taken out keeps its parent, or gets `init` if that ends. -/
theorem zombie_heir (h : Reach (Booted I) (Step I) k) (ht : Trace (Step I) k l) {r : PId}
    (hz : (k.sched.proc x).state = .zombie) (hpar : (k.sched.proc x).parent = some r)
    (hn : Trace.count (reports x) k l = 0) :
    ((Trace.last k l).sched.proc x).state = .zombie ∧
      ((Trace.last k l).sched.proc x).parent =
        if Trace.count (exits r) k l = 0 then some r else k.sched.initproc := by
  induction ht generalizing r with
  | nil => exact ⟨hz, by simpa [Trace.count, Trace.last] using hpar⟩
  | @cons k k' y l hs _ ih =>
    have ih := fun {r} => ih (r := r) (h.step hs)
    have hinit := (hs.follows (Reach.balanced h)).1
    have hzk : zombie k x = true := by simp [zombie, hz]
    simp only [Trace.count, Nat.add_eq_zero_iff] at hn
    cases hs.turn (Reach.balanced h) x with
    | exit _ _ hz1 => rw [hzk] at hz1; cases hz1
    | report _ hr => rw [hr] at hn; exact absurd hn.1 (by decide)
    | same _ _ hz1 hpar1 =>
      have hz' : (k'.sched.proc x).state = .zombie := by
        rw [hzk] at hz1
        simpa [zombie] using hz1
      have hpar' := hpar1 hzk r hpar
      by_cases he : exits r k y k' = true
      · -- the parent ends here, and `init` never does
        obtain ⟨i, hi, -⟩ := (Reach.rooted h).init
        rw [if_pos he, hi] at hpar'
        obtain ⟨hzl, hpl⟩ := ih hz' hpar' hn.2
        refine ⟨hzl, hpl.trans ?_⟩
        rw [hinit, hi, ite_self, if_neg (by simp [Trace.count, he])]
      · rw [if_neg he] at hpar'
        obtain ⟨hzl, hpl⟩ := ih hz' hpar' hn.2
        refine ⟨hzl, hpl.trans ?_⟩
        rw [hinit, show Trace.count (exits r) k ((y, k') :: l) = Trace.count (exits r) k' l by
          simp [Trace.count, he]]

/-! ## Giving up, and giving back -/

theorem swtchBack_returning {ctx : Context} :
    Keeps (fun _ s' : Sched => (s'.cpu c).mode = .returning) (swtchBack c p ctx) :=
  .right fun _ => .update fun s => by simp [Sched.setCpu, Env.setCpu]

theorem sched_returning {ctx : Context} :
    Keeps (fun _ s' : Sched => (s'.cpu c).mode = .returning) (Xv6Rework.sched c p ctx) := by
  refine .right fun _ => .ite .halt (.right fun _ => .ite (.right fun _ => .right fun cpu => ?_) ?_)
  on_goal 1 =>
    rcases cpu with _ | k
    · exact .halt
    refine .right fun _ => ?_
  all_goals
    refine .right fun _ => .ite (.right fun _ => .right fun _ => swtchBack_returning)
      (.right fun _ => .ite (.right fun curr => ?_) swtchBack_returning)
    cases curr with
    | some q => exact .right fun _ => .right fun _ => swtchBack_returning
    | none => exact .right fun _ => swtchBack_returning

/-- A `wait` that returns `-1` to its caller, instead of going to sleep. -/
theorem wait_none (h : Xv6Rework.wait c p s = (.ok none, s')) (hrun : s'.runningOn c = some p) :
    (∀ x, (s.proc x).parent ≠ some p) ∨ (s.proc p).killed = true := by
  rcases hx : (List.finRange NPROC).find? fun x =>
      decide ((s.proc x).parent = some p) && decide ((s.proc x).state = .zombie) with _ | x
  · simp only [Xv6Rework.wait, bind_gets, hx] at h
    split at h
    · next hg =>
      simp only [Bool.or_eq_true, Bool.not_eq_true', List.any_eq_false, List.mem_finRange,
        decide_eq_true_eq, true_imp_iff] at hg
      exact hg
    · obtain ⟨_, s1, hsl, h⟩ := bind_eq_ok h
      cases h
      have hmode : Keeps (fun _ s' : Sched => (s'.cpu c).mode = .returning)
          (sleep c p (.proc p)) := .right fun _ => .right fun _ => .right fun _ => sched_returning
      simp [Env.runningOn, hmode _ _ _ hsl] at hrun
  · simp [Xv6Rework.wait, hx] at h

theorem onMem_ok {α : Type} {y : MemM α} {r : α} (h : onMem y k = (.ok r, k')) :
    ∃ m, y k.mem = (.ok r, m) ∧ k' = { k with mem := m } := by
  rw [onMem, zoom] at h
  exact ⟨(y k.mem).2, run_eq (congrArg Prod.fst h), (congrArg Prod.snd h).symm⟩

theorem onSched_ok {α : Type} {y : SchedM α} {r : α} (h : onSched y k = (.ok r, k')) :
    ∃ s, y k.sched = (.ok r, s) ∧ k' = { k with sched := s } := by
  rw [onSched, zoom] at h
  exact ⟨(y k.sched).2, run_eq (congrArg Prod.fst h), (congrArg Prod.snd h).symm⟩

/-- A `wait` that takes a child out puts its stack and directory on the free list, and
does nothing to other slots. -/
theorem wait_frees {r : Option Int32} (h : wait I c p k = (.ok r, k'))
    (hx : ((List.finRange NPROC).find? fun x => decide ((k.sched.proc x).parent = some p) &&
      decide ((k.sched.proc x).state = .zombie)) = some x) :
    (∃ f d, k.kstack x = some f ∧ k.pgdir x = some d ∧ f ∈ k'.mem.freelist ∧
      d ∈ k'.mem.freelist ∧ k'.kstack x = none) ∧
    ∀ y, y ≠ x → k'.sched.proc y = k.sched.proc y := by
  have hsched := wait_sched r k' h
  simp only [Xv6Rework.wait, bind_gets, hx, bind_update, pure_apply, Prod.mk.injEq] at hsched
  refine ⟨?_, fun y hy => by rw [← hsched.2, Sched.setProc_proc, if_neg hy]⟩
  simp only [wait, bind_gets, hx] at h
  rcases hf : k.kstack x with _ | f
  · simp [hf] at h
  simp only [hf] at h
  obtain ⟨_, k1, h1, h⟩ := bind_eq_ok h
  obtain ⟨m1, hm1, rfl⟩ := onMem_ok h1
  simp only [bind_update, bind_gets, setStack] at h
  obtain ⟨_, k2, h2, h⟩ := bind_eq_ok h
  obtain ⟨m2, hm2, rfl⟩ := onMem_ok h2
  obtain ⟨s, hs, rfl⟩ := onSched_ok h
  rcases hd : k.pgdir x with _ | d
  · simp [hd, freevm] at hm2
  rw [show ({ k with mem := m1, kstack := Function.update k.kstack x none } : Kernel).pgdir x =
    some d from hd] at hm2
  obtain ⟨hgrow, hmem⟩ := freevm_grows _ _ _ hm2
  refine ⟨f, d, rfl, rfl, hgrow.subset ?_, hmem, by simp⟩
  rw [show ({ k with mem := m1, kstack := Function.update k.kstack x none } : Kernel).mem =
    m1 from rfl, wlp_kfree _ _ hm1]
  exact List.mem_cons_self

/-- A frame on the free list is there once, and one in use is not there. -/
theorem Balanced.count_free (h : Balanced I k) (f : Nat) : k.mem.freelist.count f ≤ 1 ∧
    (f ∈ held .univ k.kstack ∨ f ∈ k.dirs → k.mem.freelist.count f = 0) := by
  have hp := h.places_eq f
  have hle : k.places f ≤ 1 := by rw [hp]; split <;> omega
  rw [places] at hle
  refine ⟨by omega, fun hm => ?_⟩
  rcases hm with hm | hm <;> have := Multiset.count_pos.mpr hm <;> omega

/-- The stack and the directory of a child that is taken out come on the free list,
where they were not. -/
theorem Step.reaps {y : Op × List Bool} (h : Reach (Booted I) (Step I) k) (hs : Step I k y k')
    (hr : reports x k y k' = true) : ∃ f d, k.kstack x = some f ∧ k.pgdir x = some d ∧
      k'.kstack x = none ∧ k.mem.freelist.count f = 0 ∧ k.mem.freelist.count d = 0 ∧
      k'.mem.freelist.count f = 1 ∧ k'.mem.freelist.count d = 1 := by
  have hb := Reach.balanced h
  have hb' := Reach.balanced (h.step hs)
  obtain ⟨op, deny⟩ := y
  simp only [reports] at hr
  split at hr
  · next c =>
    simp only [Bool.and_eq_true, decide_eq_true_eq] at hr
    obtain ⟨_, k1, hk1, hs'⟩ := bind_eq_ok hs
    cases hk1
    obtain ⟨p, hp, hs'⟩ := of_onMyproc_ok hs'
    obtain ⟨r, k2, hw, hs'⟩ := bind_eq_ok hs'
    cases hs'
    rcases hz : (List.finRange NPROC).find? fun x => decide ((k.sched.proc x).parent = some p) &&
        decide ((k.sched.proc x).state = .zombie) with _ | z
    · -- the zombie `x` is a child of the caller
      cases hs.turn hb x with
      | exit _ h => simp [reports, hr] at h
      | report _ _ _ _ c' q hop hq hpar =>
        cases hop
        have hfind := List.find?_eq_none.mp hz x (List.mem_finRange x)
        rw [show k.sched.runningOn c = some p from hp] at hq
        simp [hr.1, hpar, Option.some.inj hq] at hfind
      | same _ h => simp [reports, hr] at h
    obtain ⟨⟨f, d, hf, hd, hf', hd', hn⟩, hother⟩ := wait_frees hw hz
    obtain rfl : x = z := by
      by_contra e
      have := hother x e
      rw [this] at hr
      exact absurd (hr.1.symm.trans hr.2) (by decide)
    have hdir : d ∈ k.dirs := by
      refine Multiset.mem_add.mpr (.inr (mem_held.mpr ⟨x, Finset.mem_univ x, ?_⟩))
      rw [liveDir, if_neg (by rw [hr.1]; decide)]
      exact hd
    refine ⟨f, d, hf, hd, hn, (hb.count_free f).2 (.inl (mem_held.mpr ⟨x, Finset.mem_univ x, hf⟩)),
      (hb.count_free d).2 (.inr hdir), ?_, ?_⟩
    · exact le_antisymm (hb'.count_free f).1 (List.count_pos_iff.mpr hf')
    · exact le_antisymm (hb'.count_free d).1 (List.count_pos_iff.mpr hd')
  · cases hr

/-! ## The tree, in every reachable state -/

/-- What holds of the processes in a state, of the steps from it and of the runs from
it. -/
structure TreeOk (I : Layout) (k : Kernel) : Prop where
  parent_live : ∀ p, (k.sched.proc p).state ≠ .unused → k.sched.initproc ≠ some p →
    ∃ q, (k.sched.proc p).parent = some q ∧ (k.sched.proc q).state ≠ .unused ∧
      (k.sched.proc q).state ≠ .zombie
  zombie_leaves : ∀ y k' x, Step I k y k' → (k.sched.proc x).state = .zombie →
    (k'.sched.proc x).state ≠ .zombie → ∃ c q, y.1 = .wait c ∧ k.sched.runningOn c = some q ∧
      (k.sched.proc x).parent = some q ∧ (k'.sched.proc x).state = .unused
  exits_eq_reports : ∀ l x, Trace (Step I) k l → (zombie k x).toNat + Trace.count (exits x) k l =
    Trace.count (reports x) k l + (zombie (Trace.last k l) x).toNat
  heir : ∀ l x r, Trace (Step I) k l → (k.sched.proc x).state = .zombie →
    (k.sched.proc x).parent = some r → Trace.count (reports x) k l = 0 →
    ((Trace.last k l).sched.proc x).state = .zombie ∧ ((Trace.last k l).sched.proc x).parent =
      if Trace.count (exits r) k l = 0 then some r else k.sched.initproc
  wait_fails : ∀ c p k', k.sched.runningOn c = some p → wait I c p k = (.ok none, k') →
    k'.sched.runningOn c = some p →
    (∀ x, (k.sched.proc x).parent ≠ some p) ∨ (k.sched.proc p).killed = true
  reaps : ∀ y k' x, Step I k y k' → reports x k y k' = true →
    ∃ f d, k.kstack x = some f ∧ k.pgdir x = some d ∧ k'.kstack x = none ∧
      k.mem.freelist.count f = 0 ∧ k.mem.freelist.count d = 0 ∧
      k'.mem.freelist.count f = 1 ∧ k'.mem.freelist.count d = 1

/-- The process tree is in order in every reachable state. -/
theorem treeOk_of_reach (h : Reach (Booted I) (Step I) k) : TreeOk I k where
  parent_live p hp hne := (Reach.rooted h).parent p hp hne
  zombie_leaves y k' x hs hz hz' := by
    cases hs.turn (Reach.balanced h) x with
    | exit _ _ hn => simp [zombie, hz] at hn
    | report _ _ _ _ c q hop hq hpar hun => exact ⟨c, q, hop, hq, hpar, hun⟩
    | same _ _ hsame => simp [zombie, hz, hz'] at hsame
  exits_eq_reports l x ht := exits_eq_reports h ht x
  heir l x r ht hz hpar hn := zombie_heir h ht hz hpar hn
  wait_fails c p k' hp hw hrun := wait_none (wait_sched none k' hw) hrun
  reaps y k' x hs hr := Step.reaps h hs hr

/-- The small machine with two processors after `main`. -/
def tinyPair : Kernel := (main tiny 2 [0xeb, 0xfe] (load 2)).2

/-- `init` forks a child, which exits on the other processor, and waits for it. -/
def tinyFamily : List ((Op × List Bool) × Kernel) :=
  Trace.run (fun x => perform tiny x.1 x.2) tinyPair
    [(.sched (.act (.schedule 0)), []), (.fork 0, []), (.sched (.act (.schedule 1)), []),
      (.sched (.act (.exit 1)), []), (.wait 0, [])]

/-- The child's one exit is reported once. -/
theorem treeOk_tinyPair : TreeOk tiny tinyPair ∧ Trace.count (exits 1) tinyPair tinyFamily = 1 ∧
    Trace.count (reports 1) tinyPair tinyFamily = 1 :=
  ⟨treeOk_of_reach (.init ⟨2, _, by decide, by decide, run_eq (by decide +kernel), 0, 18,
    by decide +kernel⟩), by decide +kernel, by decide +kernel⟩

end Xv6Rework.Kernel
