import Xv6Rework.Sched.Invariant

/-!
# What `wakeup1` does

`wakeup1` walks `sleepqueue`.  At the first sleeper on its channel it moves that
process to `readyqueue` and only then reads `p->next`, so the walk goes on in
`readyqueue`, behind the place the process was inserted at.  Nothing there is
asleep: the walk ends at the end of `readyqueue`, unless it meets a process
whose stale `chan` is the channel, where it panics.  It panics at once at a
process of `sleepqueue` with that channel that is not asleep.

`wakeup1_refines` says this on abstract states: at most one process is woken.
-/

namespace Xv6Rework

open Prog

variable {s s' : Sched} {a : Abs} {c : CpuId} {p : PId} {chan : Chan} {hit : Prop}

/-! ## The two parts of the walk -/

/-- The walk over processes none of which sleeps. -/
theorem wakeupLoop_awake (l1 l2 : List PId)
    (h : DLinked (fun p => (s.proc p).next) (fun p => (s.proc p).prev) (l1 ++ l2)) (fuel : Nat)
    (hf : l2.length ≤ fuel) (hs : ∀ p ∈ l2, (s.proc p).state ≠ .sleeping) :
    wakeupLoop chan fuel l2.head? s =
      (if ∃ p ∈ l2, (s.proc p).chan = chan then .error (.panic "stuck proc") else .ok (), s) := by
  induction l2 generalizing l1 fuel with
  | nil => simp [wakeupLoop]
  | cons x l ih =>
    obtain ⟨fuel, rfl⟩ : ∃ k, fuel = k + 1 := ⟨fuel - 1, by simp at hf; omega⟩
    have hx : (s.proc x).state ≠ .sleeping := hs x (by simp)
    have hnext : (s.proc x).next = l.head? := h.next_eq l1 x l rfl
    by_cases hc : (s.proc x).chan = chan
    · simp [wakeupLoop, hx, hc]
    · have := ih (l1 ++ [x]) (by simpa using h) fuel (by simpa using hf)
        (fun p hp => hs p (by simp [hp]))
      simp [wakeupLoop, hx, hc, hnext, this]

/-- The walk over sleepers up to the first one on the channel. -/
theorem wakeupLoop_asleep (l1 l2 l3 : List PId)
    (h : DLinked (fun p => (s.proc p).next) (fun p => (s.proc p).prev) (l1 ++ (l2 ++ l3)))
    (fuel : Nat) (hc : ∀ p ∈ l2, (s.proc p).chan ≠ chan) :
    wakeupLoop chan (l2.length + fuel) (l2 ++ l3).head? s = wakeupLoop chan fuel l3.head? s := by
  induction l2 generalizing l1 with
  | nil => simp
  | cons x l ih =>
    have hnext : (s.proc x).next = (l ++ l3).head? := h.next_eq l1 x (l ++ l3) (by simp)
    have hx : (s.proc x).chan ≠ chan := hc x (by simp)
    have := ih (l1 ++ [x]) (by simpa using h) (fun p hp => hc p (by simp [hp]))
    rw [List.length_cons, Nat.add_right_comm]
    simpa [wakeupLoop, hx, hnext] using this

/-! ## Waking one process -/

/-- `p` moved from `sleepqueue` to `readyqueue`. -/
def Abs.wake (a : Abs) (p : PId) : Abs :=
  (((a.remove p .sleep).setTask p fun t => { t with state := .runnable }).insert p
    .ready).setTask p fun t => { t with pFlag := URGENT, pPri := t.pPri + 1 }

/-- The part of `readyqueue` that `p`, when woken, is placed in front of. -/
def Abs.behind (a : Abs) (p : PId) : List PId :=
  (a.list .ready).tail.dropWhile fun x => !outranks (a.task p) (a.task x)

theorem Inv.unclaimed_of_sleeping (hi : Inv hit a) (hst : (a.task p).state = .sleeping) :
    (a.task p).unclaimed = a.task p := by
  rw [Task.unclaimed, if_neg (by simp [(hi.unclaimed (p := p) (by simp [hst])).1])]

/-- Waking `p` changes `p`'s task only. -/
theorem Abs.wake_task (hi : Inv hit a) (hst : (a.task p).state = .sleeping) {p' : PId} :
    (a.wake p).task p' = if p' = p then
      { a.task p with
        state := .runnable, curr := some .ready, pFlag := URGENT, pPri := (a.task p).pPri + 1 }
    else a.task p' := by
  by_cases e : p' = p
  · subst e
    simp [Abs.wake, Abs.insert, Abs.remove, hi.unclaimed_of_sleeping hst]
  · simp [Abs.wake, Abs.insert, Abs.remove, Abs.setTask_task, e]

@[simp] theorem Abs.wake_env : (a.wake p).env = a.env := rfl

theorem Abs.wake_list_sleep : (a.wake p).list .sleep = (a.list .sleep).erase p := by
  simp [Abs.wake, Abs.insert, Abs.remove, Abs.setList_list]

/-- A woken process is in front of the processes it outranks, and of all behind
those. -/
theorem Abs.wake_list_ready (h : Sim s a) (hi : Inv hit a) (hst : (a.task p).state = .sleeping) :
    ∃ l1, (a.wake p).list .ready = l1 ++ p :: a.behind p := by
  have hp := hi.asleep hst
  have hne : ∀ x ∈ a.list .ready, x ≠ p := by
    rintro x hx rfl
    cases h.disjoint _ _ x hx hp
  set b := (a.remove p .sleep).setTask p fun t => { t with state := .runnable } with hb
  have hlist : (a.wake p).list .ready = Abs.place b.task p (a.list .ready) := by
    simp [Abs.wake, ← hb, Abs.insert]
    simp [hb, Abs.remove, Abs.setList_list]
  have hbp : b.task p = { a.task p with state := .runnable } := by
    simp [hb, Abs.remove, hi.unclaimed_of_sleeping hst]
  have hrank : ∀ x ∈ a.list .ready, outranks (b.task p) (b.task x) = outranks (a.task p)
      (a.task x) := by
    intro x hx
    have hbx : b.task x = a.task x := by
      simp [hb, Abs.remove, Abs.setTask_task, hne x hx]
    rw [hbp, hbx]
    rfl
  obtain ⟨l1, hl1⟩ := Abs.place_eq_append b.task p (a.list .ready)
  refine ⟨l1, ?_⟩
  rw [hlist, hl1, Abs.behind, Abs.dropWhile_congr fun x hx => ?_]
  rw [hrank x (List.mem_of_mem_tail hx)]

/-- Membership after waking `p`. -/
theorem Abs.mem_wake (h : Sim s a) (hp : p ∈ a.list .sleep) {p' : PId} {q : QId} :
    p' ∈ (a.wake p).list q ↔ if p' = p then q = .ready else p' ∈ a.list q := by
  have hnd := (h.wf .sleep).linked.nodup
  rw [Abs.wake, Abs.setTask_list, Abs.mem_insert, Abs.setTask_list, Abs.mem_remove hnd]
  split
  · next e =>
    subst e
    constructor
    · rintro (⟨hm, hn⟩ | ⟨hq, -⟩)
      · exact absurd ⟨h.disjoint _ _ _ hm hp, rfl⟩ hn
      · exact hq
    · exact fun hq => .inr ⟨hq, rfl⟩
  · next e => simp [e]

/-- The invariant survives waking a sleeper. -/
theorem Inv.wake (hi : Inv hit a) (h : Sim s a) (hst : (a.task p).state = .sleeping) :
    Inv hit (a.wake p) := by
  have hp := hi.asleep hst
  obtain ⟨dest, hr⟩ := hi p
  have hdest : dest = some .sleep := (hr.mem_iff _).mp hp
  refine hi.move p (some .ready) (fun p' e => ?_) (fun q p' e => ?_) (fun c p' _ => Iff.rfl)
    ⟨fun q => ?_, fun c => ?_, ?_, fun q hq => ?_, fun _ => ?_⟩
  · rw [Abs.wake_task hi hst, if_neg e]
  · rw [Abs.mem_wake h hp, if_neg e]
  · rw [Abs.mem_wake h hp, if_pos rfl]; simp [eq_comm]
  · rw [Abs.wake_env, hr.runningOn_iff, hdest]; simp
  · simp [Abs.wake_task hi hst, RestState]
  · simpa [Abs.wake_task hi hst] using hq
  · simpa [Abs.wake_task hi hst] using hi.unclaimed (p := p) (by simp [hst])

/-- The body of the loop at a sleeper on the channel. -/
theorem Sim.wake (h : Sim s a) (hi : Inv hit a) (hst : (a.task p).state = .sleeping) (fuel : Nat)
    (hc : (a.task p).chan = chan) : ∃ s', Sim s' (a.wake p) ∧
      wakeupLoop chan (fuel + 1) (some p) s = wakeupLoop chan fuel (s'.proc p).next s' := by
  have hp := hi.asleep hst
  obtain ⟨s1, hs1, h1⟩ := h.remove hp (by simp [hst]) (fun c hc => by cases hc)
  have h2 := h1.setTask p fun t => { t with state := .runnable }
  have ht : ((a.remove p .sleep).setTask p fun t => { t with state := .runnable }).task p =
      { a.task p with state := .runnable } := by
    simp [Abs.remove, hi.unclaimed_of_sleeping hst]
  obtain ⟨s3, hs3, h3⟩ := h2.insert (q := .ready) (h.unlinked_remove hp) (by rw [ht]; simp)
    (by rw [ht]; simp [hi.curr_eq hp]) (fun c hc => by cases hc)
  have h4 := h3.setTask p fun t => { t with pFlag := URGENT, pPri := t.pPri + 1 }
  refine ⟨_, h4, ?_⟩
  rw [← h.task_eq] at hst hc
  simp [wakeupLoop, hst, hc, bind_of_ok hs1, bind_of_ok hs3]

/-- The whole of `wakeup1`. -/
theorem wakeup1_refines (h : Sim s a) (hi : Inv hit a) (chan : Chan) :
    match (a.list .sleep).find? fun p => (a.task p).chan = chan with
    | none => wakeup1 chan s = (.ok (), s)
    | some p =>
      if (a.task p).state = .sleeping then
        ∃ s', Sim s' (a.wake p) ∧ wakeup1 chan s =
          (if ∃ x ∈ a.behind p, (a.task x).chan = chan then .error (.panic "stuck proc")
            else .ok (), s')
      else wakeup1 chan s = (.error (.panic "stuck proc"), s) := by
  have hlinked := (h.wf .sleep).linked
  have hnd := hlinked.nodup
  have hlen := length_le_of_nodup hnd
  have hhead : wakeup1 chan s = wakeupLoop chan NPROC (a.list .sleep).head? s := by
    simp [wakeup1, (h.wf .sleep).head_eq]
  have htask : ∀ x, (s.proc x).chan = (a.task x).chan := fun x => by rw [← h.task_eq x]
  split
  · next hnone =>
    have hc : ∀ x ∈ a.list .sleep, (s.proc x).chan ≠ chan := fun x hx => by
      have := List.find?_eq_none.mp hnone x hx
      rw [htask]
      simpa using this
    have := wakeupLoop_asleep [] (a.list .sleep) [] (by simpa using hlinked)
      (NPROC - (a.list .sleep).length) hc
    rw [Nat.add_sub_cancel' hlen, List.append_nil] at this
    rw [hhead, this]
    simp [wakeupLoop]
  · next p hsome =>
    obtain ⟨hpc, l2, l3, hl, hbefore⟩ := List.find?_eq_some_iff_append.mp hsome
    have hp : p ∈ a.list .sleep := by simp [hl]
    have hpc : (a.task p).chan = chan := by simpa using hpc
    have hc : ∀ x ∈ l2, (s.proc x).chan ≠ chan := fun x hx => by
      rw [htask]
      simpa using hbefore x hx
    -- fuel for the walk in `sleepqueue` up to `p`, and for the walk behind `p`
    have hfuel : l2.length + 1 + (a.behind p).length ≤ NPROC := by
      have hdisj : (a.list .sleep ++ a.list .ready).Nodup :=
        List.nodup_append.mpr ⟨hnd, (h.wf .ready).linked.nodup, fun x hx y hy e => by
          subst e; cases h.disjoint _ _ x hx hy⟩
      have h1 := length_le_of_nodup hdisj
      have h2 : (a.behind p).length ≤ (a.list .ready).length :=
        ((List.dropWhile_sublist _).trans (List.tail_sublist _)).length_le
      have h3 : l2.length + 1 ≤ (a.list .sleep).length := by rw [hl]; simp
      rw [List.length_append] at h1
      omega
    obtain ⟨fuel, hF⟩ : ∃ fuel, NPROC = l2.length + (fuel + 1) :=
      ⟨NPROC - l2.length - 1, by omega⟩
    have hwalk := wakeupLoop_asleep [] l2 (p :: l3) (by simpa [← hl] using hlinked)
      (fuel + 1) hc
    rw [← hl, ← hF, List.head?_cons] at hwalk
    split
    · next hst =>
      obtain ⟨s', h', hbody⟩ := h.wake hi hst fuel hpc
      obtain ⟨l1, hready⟩ := Abs.wake_list_ready h hi hst
      have hlinked' := (h'.wf .ready).linked
      rw [hready, List.append_cons] at hlinked'
      have hnext : (s'.proc p).next = (a.behind p).head? :=
        hlinked'.next_eq l1 p (a.behind p) (by simp)
      have hinv' := hi.wake h hst
      have hbehind : ∀ x ∈ a.behind p, x ∈ (a.wake p).list .ready := fun x hx => by
        rw [hready]; simp [hx]
      refine ⟨s', h', ?_⟩
      rw [hbody, hnext, wakeupLoop_awake (l1 ++ [p]) (a.behind p) hlinked' fuel (by omega)
        fun x hx => ?_] at hwalk
      · have hchan : ∀ x, (s'.proc x).chan = (a.task x).chan := fun x => by
          rw [h'.task_eq, Abs.wake_task hi hst]
          split
          · next e => rw [e]
          · rfl
        simp only [hhead, hwalk, hchan]
      · rw [h'.task_eq, hinv'.runnable (hbehind x hx)]
        simp
    · next hst =>
      rw [← h.task_eq] at hst
      rw [hhead, hwalk]
      simp [wakeupLoop, hst, htask, hpc]

end Xv6Rework
