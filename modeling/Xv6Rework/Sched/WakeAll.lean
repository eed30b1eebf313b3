import Xv6Rework.Sched.Partition

/-!
# When `wakeup` wakes every sleeper

`wakeup1` is documented to wake all processes that sleep on a channel.  It does
so, without panicking, exactly when at most one process sleeps on the channel
and no process that this one is placed in front of in `readyqueue` still
carries the channel in its `chan` field, which is cleared only when a woken
process runs again.
-/

namespace Xv6Rework

open Prog

/-- `p` is asleep on `chan`. -/
def Sched.SleepsOn (s : Sched) (chan : Chan) (p : PId) : Prop :=
  (s.proc p).state = .sleeping ∧ (s.proc p).chan = chan

/-- The processes of `readyqueue` in front of which `p` is placed when woken. -/
def Sched.behind (s : Sched) (p : PId) : List PId :=
  (s.links .ready).tail.dropWhile fun x => !outranks (s.proc p).toTask (s.proc x).toTask

instance (s : Sched) (chan : Chan) (p : PId) : Decidable (s.SleepsOn chan p) :=
  inferInstanceAs (Decidable (_ ∧ _))

/-- `s'` is `s` after all sleepers on `chan` have been woken. -/
structure Woken (chan : Chan) (s s' : Sched) : Prop where
  none_left : ∀ p, ¬s'.SleepsOn chan p
  woken : ∀ p, s.SleepsOn chan p →
    (s'.proc p).state = .runnable ∧ (s'.links .ready).count p = 1 ∧ p ∉ s'.links .sleep
  others : s'.links .sleep = (s.links .sleep).filter fun p => (s.proc p).chan ≠ chan
  ready_wf : QueueWf s' .ready (s'.links .ready)
  sleep_wf : QueueWf s' .sleep (s'.links .sleep)

/-- `wakeup1` returns and has woken all sleepers. -/
def WakesAll (chan : Chan) (s : Sched) : Prop :=
  ∃ s', wakeup1 chan s = (.ok (), s') ∧ Woken chan s s'

/-- At most one process sleeps on `chan`, and none that it is placed in front of
carries `chan`. -/
def LoneSleeper (chan : Chan) (s : Sched) : Prop :=
  ∀ p, s.SleepsOn chan p →
    (∀ p', s.SleepsOn chan p' → p' = p) ∧ ∀ x ∈ s.behind p, (s.proc x).chan ≠ chan

instance (s : Sched) (chan : Chan) : Decidable (LoneSleeper chan s) :=
  inferInstanceAs (Decidable (∀ _, _ → _ ∧ _))

section

variable {s s' : Sched} {a : Abs} {p : PId} {chan : Chan}

theorem Sim.sleepsOn_iff (h : Sim s a) (hi : Inv False a) :
    s.SleepsOn chan p ↔ p ∈ a.list .sleep ∧ (a.task p).chan = chan := by
  rw [Sched.SleepsOn, hi.sleep_iff, ← h.task_eq]

theorem Sim.behind_eq (h : Sim s a) : s.behind p = a.behind p := by
  simp only [Sched.behind, Abs.behind, (h.wf .ready).links_eq, h.task_eq]

/-- With nobody to wake, nothing is to be done. -/
theorem Woken.refl (h : Sim s a) (hi : Inv False a) (hnone : ∀ p, ¬s.SleepsOn chan p) :
    Woken chan s s := by
  have hlinks : ∀ q, s.links q = a.list q := fun q => (h.wf q).links_eq
  refine ⟨hnone, fun p hp => absurd hp (hnone p), ?_, ?_, ?_⟩
  · rw [eq_comm, List.filter_eq_self]
    intro p hp
    have := hnone p
    rw [h.sleepsOn_iff hi, ← h.task_eq] at this
    rw [hlinks] at hp
    simpa [hp] using this
  · rw [hlinks]; exact h.wf .ready
  · rw [hlinks]; exact h.wf .sleep

/-- Waking `p` wakes all sleepers exactly if `p` is the only one. -/
theorem Sim.woken_iff (h : Sim s a) (hi : Inv False a) (hp : s.SleepsOn chan p)
    (h' : Sim s' (a.wake p)) : Woken chan s s' ↔ ∀ p', s.SleepsOn chan p' → p' = p := by
  have hm := ((h.sleepsOn_iff hi).mp hp).1
  have hst := (hi.sleep_iff p).mp hm
  have hi' := hi.wake h hst
  have hlinks : ∀ q, s.links q = a.list q := fun q => (h.wf q).links_eq
  have hlinks' : ∀ q, s'.links q = (a.wake p).list q := fun q => (h'.wf q).links_eq
  have hsleeps : ∀ p', s'.SleepsOn chan p' ↔ p' ≠ p ∧ s.SleepsOn chan p' := fun p' => by
    rw [Sched.SleepsOn, Sched.SleepsOn, h'.task_eq, h.task_eq, Abs.wake_task hi hst]
    split
    · next e => simp [e]
    · next e => simp [e]
  constructor
  · intro hw p' hp'
    by_contra e
    exact hw.none_left p' ((hsleeps p').mpr ⟨e, hp'⟩)
  · intro honly
    refine ⟨fun p' hp' => ?_, fun p' hp' => ?_, ?_, ?_, ?_⟩
    · obtain ⟨e, hs⟩ := (hsleeps p').mp hp'
      exact e (honly p' hs)
    · rw [honly p' hp', hlinks', hlinks', h'.task_eq]
      have hready : p ∈ (a.wake p).list .ready := (Abs.mem_wake h hm).mpr (by simp)
      refine ⟨(hi'.ready_iff p).mp hready, List.count_eq_one_of_mem
        (h'.wf .ready).linked.nodup hready, fun hs => ?_⟩
      cases h'.disjoint _ _ p hready hs
    · rw [hlinks', hlinks, Abs.wake_list_sleep, (h.wf .sleep).linked.nodup.erase_eq_filter]
      refine List.filter_congr fun x hx => ?_
      have : (s.proc x).chan = chan ↔ x = p := by
        constructor
        · intro hc
          exact honly x ((h.sleepsOn_iff hi).mpr ⟨hx, by rw [← h.task_eq]; exact hc⟩)
        · rintro rfl
          exact hp.2
      by_cases e : x = p
      · subst e; simp [hp.2]
      · simp [this, e]
    · rw [hlinks']; exact h'.wf .ready
    · rw [hlinks']; exact h'.wf .sleep

/-- `wakeup1` wakes all sleepers on its channel, without a panic, exactly from the
states with a lone sleeper. -/
theorem Consistent.wakesAll_iff (h : Consistent s) : WakesAll chan s ↔ LoneSleeper chan s := by
  obtain ⟨a, h, hi⟩ := h
  have hw := wakeup1_refines h hi chan
  split at hw
  · next hnone =>
    have hnobody : ∀ p, ¬s.SleepsOn chan p := fun p hp => by
      rw [h.sleepsOn_iff hi] at hp
      simpa [hp.2] using List.find?_eq_none.mp hnone p hp.1
    exact ⟨fun _ p hp => absurd hp (hnobody p), fun _ => ⟨s, hw, .refl h hi hnobody⟩⟩
  · next p hfind =>
    rw [if_pos (((hi.sleep_iff p).mp (List.mem_of_find?_eq_some hfind)))] at hw
    obtain ⟨s', h', hrun⟩ := hw
    have hp : s.SleepsOn chan p := (h.sleepsOn_iff hi).mpr
      ⟨List.mem_of_find?_eq_some hfind, by simpa using List.find?_some hfind⟩
    have hstale : (∃ x ∈ a.behind p, (a.task x).chan = chan) ↔
        ¬∀ x ∈ s.behind p, (s.proc x).chan ≠ chan := by
      simp only [h.behind_eq, ← h.task_eq]
      simp
    constructor
    · rintro ⟨s'', hs'', hwoken⟩
      rw [hrun] at hs''
      split at hs''
      · cases hs''
      · next hfresh =>
        obtain rfl : s' = s'' := (Prod.mk.inj hs'').2
        have honly := (h.woken_iff hi hp h').mp hwoken
        intro p' hp'
        rw [honly p' hp']
        exact ⟨honly, not_not.mp (hstale.not.mp hfresh)⟩
    · intro hlone
      obtain ⟨honly, hfresh⟩ := hlone p hp
      refine ⟨s', ?_, (h.woken_iff hi hp h').mpr honly⟩
      rw [hrun, if_neg (hstale.not.mpr (not_not.mpr hfresh))]

end

/-- In a reachable state, `wakeup1` is complete and safe for exactly the channels
with a lone sleeper. -/
theorem wakesAll_iff_loneSleeper {s : Sched} (h : Reachable s) (chan : Chan) :
    WakesAll chan s ↔ LoneSleeper chan s :=
  h.consistent.wakesAll_iff

/-- `init` sleeps alone and is woken behind a ready child. -/
theorem wakesAll_one_sleeper :
    WakesAll (.addr 1) (runFrom 1 [.schedule 0, .fork 0 true true, .sleep 0 (.addr 1)]).2 :=
  (wakesAll_iff_loneSleeper (.of_runFrom (by decide) (by decide) (by decide +kernel)) _).mpr
    (by decide +kernel)

/-- Two processes go to sleep on one channel, one after the other. -/
def twoSleepers : List Act :=
  [.schedule 0, .fork 0 true true, .sleep 0 (.addr 1), .switchBack 0,
    .schedule 0, .sleep 0 (.addr 1), .switchBack 0]

/-- Of two processes asleep on one channel, the second stays asleep. -/
theorem not_wakesAll_two_sleepers : Reachable (runFrom 1 twoSleepers).2 ∧
    ¬WakesAll (.addr 1) (runFrom 1 twoSleepers).2 := by
  refine ⟨.of_runFrom (by decide) (by decide) (by decide +kernel), ?_⟩
  rintro ⟨s', hs', hw⟩
  obtain rfl : s' = (wakeup1 (.addr 1) (runFrom 1 twoSleepers).2).2 := by rw [hs']
  exact hw.none_left ⟨1, by decide⟩ (by decide +kernel)

end Xv6Rework
