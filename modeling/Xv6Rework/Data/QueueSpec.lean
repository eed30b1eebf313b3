import Xv6Rework.Sched.Abstract

/-!
# The queue functions refine list operations

Insertion and removal of `Data/Queue.lean` on one well-formed queue, whatever the
other queues are: the function returns, the queue it leaves is well formed for the
abstract operation's list, and nothing but that queue, its processes and the process
in question has changed (`Relinked`).

For states that represent an abstract one as a whole this gives a theorem for each of
the two: the state they leave represents the abstract operation's result.  These also
keep track of the `tail` pointers of the queues they do not grow past one process,
which `do_balance` reads and which the lists do not determine.
-/

namespace Xv6Rework

open Prog
open Sched (setProc setProc_proc setQueue setQueue_queue)

variable {s : Sched} {a : Abs} {q : QId} {new old : PId}

/-! ## Locks and claims -/

theorem acquire_ok (h : (s.queue q).qloc = false) :
    acquire q s = (.ok (), s.setQueue q fun pq => { pq with qloc := true }) := by
  simp [acquire, h]

theorem release_ok (h : (s.queue q).qloc = true) :
    release q s = (.ok (), s.setQueue q fun pq => { pq with qloc := false }) := by
  simp [release, h]

theorem unclaimProc_ok {p : PId} (h : s.checkLock = false) :
    unclaimProc p s = (.ok (s.proc p).inQueue,
      s.setProc p fun p => { p with toTask := p.toTask.unclaimed }) := by
  simp [unclaimProc, acquireCheck, releaseCheck, h, setProc]

theorem claimProc_ok {p : PId} {c : CpuId} (h : s.checkLock = false)
    (hq : (s.proc p).inQueue = false) :
    claimProc p c s = (.ok true,
      s.setProc p fun p => { p with inQueue := true, currCpu := some c }) := by
  simp [claimProc, acquireCheck, releaseCheck, h, hq, setProc]

theorem claimProc_taken {p : PId} {c : CpuId} (h : s.checkLock = false)
    (hq : (s.proc p).inQueue = true) : claimProc p c s = (.ok false, s) := by
  simp [claimProc, acquireCheck, releaseCheck, h, hq]
  rw [← h]

/-! ## The loops -/

/-- The insertion loop finds the first outranked process. -/
theorem findPlace_ok (l1 l2 : List PId)
    (h : DLinked (fun p => (s.proc p).next) (fun p => (s.proc p).prev) (l1 ++ l2)) {fuel : Nat}
    (hf : l2.length ≤ fuel) :
    findPlace new fuel l2.head? s = (.ok (l2.dropWhile fun p =>
      !outranks (s.proc new).toTask (s.proc p).toTask).head?, s) := by
  induction l2 generalizing l1 fuel with
  | nil => cases fuel <;> rfl
  | cons x l2 ih =>
    cases fuel with
    | zero => simp at hf
    | succ fuel =>
      have hx : (s.proc x).next = l2.head? := h.next_eq l1 x l2 rfl
      have ih := ih (l1 ++ [x]) (by simpa using h) (by simpa using hf)
      cases ho : outranks (s.proc new).toTask (s.proc x).toTask with
      | true => simp [findPlace, ho]
      | false => simp [findPlace, ho, hx, ih]

/-- The search loop of removal finds a process that is linked. -/
theorem findProc_ok (l1 l2 : List PId)
    (h : DLinked (fun p => (s.proc p).next) (fun p => (s.proc p).prev) (l1 ++ l2)) {fuel : Nat}
    (hf : l2.length ≤ fuel) (hm : old ∈ l2) : findProc old fuel l2.head? s = (.ok true, s) := by
  induction l2 generalizing l1 fuel with
  | nil => simp at hm
  | cons x l2 ih =>
    cases fuel with
    | zero => simp at hf
    | succ fuel =>
      by_cases hx : x = old
      · simp [findProc, hx]
      · have hn : (s.proc x).next = l2.head? := h.next_eq l1 x l2 rfl
        have hm : old ∈ l2 := by simpa [Ne.symm hx] using hm
        simp [findProc, hx, hn, ih (l1 ++ [x]) (by simpa using h) (by simpa using hf) hm]

/-! ## Insertion -/

theorem finishInsert_ok (h : (s.queue q).qloc = true) :
    finishInsert new q s = (.ok (),
      (s.setProc new fun p => { p with curr := some q }).setQueue q fun pq =>
        { pq with qloc := false, len := pq.len + 1 }) := by
  simp [finishInsert, release, h, setQueue, setProc]

/-- From `s` to `s'` the queue `q` changes its list from `l` to `l'`, and the process `p`
changes by `f`; the links of processes that are neither in the queue nor `p` stay, and so
does everything else. -/
structure Relinked (s : Sched) (q : QId) (p : PId) (l l' : List PId) (f : Task → Task)
    (s' : Sched) : Prop where
  wf : QueueWf s' q l'
  unlocked : (s'.queue q).qloc = false
  env_eq : s'.toEnv = s.toEnv
  check_eq : s'.checkLock = s.checkLock
  queue_eq : ∀ q', q' ≠ q → s'.queue q' = s.queue q'
  task_self : (s'.proc p).toTask = f (s.proc p).toTask
  task_eq : ∀ p', p' ≠ p → (s'.proc p').toTask = (s.proc p').toTask
  links_eq : ∀ p', p' ∉ l → p' ≠ p →
    (s'.proc p').next = (s.proc p').next ∧ (s'.proc p').prev = (s.proc p').prev

/-- The relinking every path of insertion amounts to. -/
theorem QueueWf.insert_of_splice {s' : Sched} (l1 l2 : List PId) (h : QueueWf s q (l1 ++ l2))
    (hn : new ∉ l1 ++ l2)
    (henv : s'.toEnv = s.toEnv) (hcheck : s'.checkLock = s.checkLock)
    (hlock : (s'.queue q).qloc = false) (hlen : (s'.queue q).len = (s.queue q).len + 1)
    (hhead : (s'.queue q).head = (l1 ++ new :: l2).head?)
    (htail : TailOf (s'.queue q).tail (l1 ++ new :: l2))
    (hqueue : ∀ q', q' ≠ q → s'.queue q' = s.queue q')
    (hnew : (s'.proc new).toTask = { (s.proc new).toTask with curr := some q })
    (hother : ∀ p, p ≠ new → (s'.proc p).toTask = (s.proc p).toTask)
    (hnn : (s'.proc new).next = l2.head?) (hpn : (s'.proc new).prev = l1.getLast?)
    (hnl : ∀ p, l1.getLast? = some p → (s'.proc p).next = some new)
    (hph : ∀ p, l2.head? = some p → (s'.proc p).prev = some new)
    (hno : ∀ p, p ≠ new → l1.getLast? ≠ some p → (s'.proc p).next = (s.proc p).next)
    (hpo : ∀ p, p ≠ new → l2.head? ≠ some p → (s'.proc p).prev = (s.proc p).prev) :
    Relinked s q new (l1 ++ l2) (l1 ++ new :: l2) (fun t => { t with curr := some q }) s' := by
  have hne : ∀ p ∈ l1 ++ l2, p ≠ new := fun p hp e => hn (e ▸ hp)
  refine ⟨⟨?_, hhead, htail, ?_⟩, hlock, henv, hcheck, hqueue, hnew, hother,
    fun p hp hpn => ⟨?_, ?_⟩⟩
  · exact h.linked.splice_in hn hnn hpn hnl hph (fun p hp => hno p (hne p hp))
      (fun p hp => hpo p (hne p hp))
  · rw [hlen, h.len_eq]
    simp only [List.length_append, List.length_cons]
    omega
  · exact hno p hpn fun hc => hp (List.mem_append_left l2 (List.mem_of_getLast? hc))
  · exact hpo p hpn fun hc => hp (List.mem_append_right l1 (List.mem_of_head? hc))

/-- Insertion into an empty queue. -/
theorem insertProcIntoQueue_nil (hst : (s.proc new).state ≠ .running)
    (hc : (s.proc new).curr ≠ some q) (hl : (s.queue q).qloc = false)
    (hh : (s.queue q).head = none) :
    insertProcIntoQueue new (some q) s = (.ok (),
      (s.setProc new fun p => { p with next := none, prev := none, curr := some q }).setQueue q
        fun pq => { pq with head := some new, len := pq.len + 1 }) := by
  simp [insertProcIntoQueue, isProcQueued, hst, hc, bind_of_ok (acquire_ok hl), hh, finishInsert_ok]
  simp [setQueue, setProc, hl]

/-- Insertion into a queue of one process. -/
theorem insertProcIntoQueue_one {h : PId} (hst : (s.proc new).state ≠ .running)
    (hc : (s.proc new).curr ≠ some q) (hl : (s.queue q).qloc = false)
    (hh : (s.queue q).head = some h) (hn : (s.proc h).next = none) (hne : new ≠ h) :
    insertProcIntoQueue new (some q) s = (.ok (),
      ((s.setProc new fun p => { p with next := none, prev := some h, curr := some q }).setProc h
        fun p => { p with next := some new }).setQueue q
        fun pq => { pq with tail := some new, len := pq.len + 1 }) := by
  simp [insertProcIntoQueue, isProcQueued, hst, hc, bind_of_ok (acquire_ok hl), hh, hn,
    finishInsert_ok]
  simp [setQueue, setProc, hl, Ne.symm hne, Function.update_comm hne]

/-- Insertion before `this`, whose predecessor is `b`. -/
theorem insertProcIntoQueue_before {h x b this : PId} (hst : (s.proc new).state ≠ .running)
    (hc : (s.proc new).curr ≠ some q) (hl : (s.queue q).qloc = false)
    (hh : (s.queue q).head = some h) (hn : (s.proc h).next = some x)
    (hf : ∀ t : Sched, t.proc = s.proc → findPlace new NPROC (some x) t = (.ok (some this), t))
    (hb : (s.proc this).prev = some b) (hnb : new ≠ b) (hnt : new ≠ this) (hbt : b ≠ this) :
    insertProcIntoQueue new (some q) s = (.ok (),
      (((s.setProc new fun p =>
        { p with next := some this, prev := some b, curr := some q }).setProc
        b fun p => { p with next := some new }).setProc this fun p =>
          { p with prev := some new }).setQueue q fun pq => { pq with len := pq.len + 1 }) := by
  have hf := hf (s.setQueue q fun pq => { pq with qloc := true }) rfl
  simp [insertProcIntoQueue, isProcQueued, hst, hc, bind_of_ok (acquire_ok hl), hh, hn,
    bind_of_ok hf, hb, finishInsert_ok]
  simp [setQueue, setProc, hl, Ne.symm hnb, Ne.symm hnt, Ne.symm hbt,
    Function.update_comm hnb, Function.update_comm hnt, Function.update_comm hbt]

/-- Insertion at the end, behind `t`. -/
theorem insertProcIntoQueue_last {h x t : PId} (hst : (s.proc new).state ≠ .running)
    (hc : (s.proc new).curr ≠ some q) (hl : (s.queue q).qloc = false)
    (hh : (s.queue q).head = some h) (hn : (s.proc h).next = some x)
    (hf : ∀ t : Sched, t.proc = s.proc → findPlace new NPROC (some x) t = (.ok none, t))
    (ht : (s.queue q).tail = some t) (hnt : new ≠ t) :
    insertProcIntoQueue new (some q) s = (.ok (),
      ((s.setProc new fun p => { p with next := none, prev := some t, curr := some q }).setProc t
        fun p => { p with next := some new }).setQueue q
        fun pq => { pq with tail := some new, len := pq.len + 1 }) := by
  have hf := hf (s.setQueue q fun pq => { pq with qloc := true }) rfl
  simp [insertProcIntoQueue, isProcQueued, hst, hc, bind_of_ok (acquire_ok hl), hh, hn,
    bind_of_ok hf, ht, finishInsert_ok]
  simp [setQueue, setProc, hl, hnt, Ne.symm hnt, Function.update_comm hnt]

/-- From the second process on, `tail` is the last one. -/
theorem tailOf_iff {l : List PId} {t : Option PId} (h : 2 ≤ l.length) :
    TailOf t l ↔ t = l.getLast? := by
  match l, h with
  | a :: b :: l, _ => exact Iff.rfl

/-- The tasks of a state. -/
def Sched.task (s : Sched) (p : PId) : Task := (s.proc p).toTask

/-- What insertion does to a queue: `new` is placed in its list, and `tail` is set only
from the second process on. -/
structure Placed (s : Sched) (q : QId) (new : PId) (l : List PId) (s' : Sched) : Prop extends
    Relinked s q new l (Abs.place s.task new l) (fun t => { t with curr := some q }) s' where
  tail_eq : l = [] → (s'.queue q).tail = (s.queue q).tail

section

variable (hlock : (s.queue q).qloc = false) (hst : (s.proc new).state ≠ .running)
  (hc : (s.proc new).curr ≠ some q)

include hlock hst hc

theorem place_nil (h : QueueWf s q []) :
    ∃ s', insertProcIntoQueue new (some q) s = (.ok (), s') ∧ Placed s q new [] s' := by
  refine ⟨_, insertProcIntoQueue_nil hst hc hlock h.head_eq,
    QueueWf.insert_of_splice [] [] h (by simp) rfl rfl ?_ ?_ ?_ ?_ ?_ ?_ ?_ ?_ ?_ ?_ ?_ ?_ ?_,
    fun _ => by simp⟩
  · simpa using hlock
  · simp
  · simp
  · exact .inl (by simpa [TailOf] using h.tail_of)
  · intro q' hq; simp [setQueue_queue, hq]
  · simp
  · intro p hp; simp [setProc_proc, hp]
  · simp
  · simp
  · simp
  · simp
  · intro p hp _; simp [setProc_proc, hp]
  · intro p hp _; simp [setProc_proc, hp]

theorem place_one {x : PId} (h : QueueWf s q [x]) (hx : new ≠ x) :
    ∃ s', insertProcIntoQueue new (some q) s = (.ok (), s') ∧ Placed s q new [x] s' := by
  refine ⟨_, insertProcIntoQueue_one hst hc hlock h.head_eq (by simpa using h.linked.next_head) hx,
    QueueWf.insert_of_splice [x] [] h (by simpa using hx) rfl rfl
      ?_ ?_ ?_ ?_ ?_ ?_ ?_ ?_ ?_ ?_ ?_ ?_ ?_, fun he => by simp at he⟩
  · simpa using hlock
  · simp
  · simpa using h.head_eq
  · simp [TailOf]
  · intro q' hq; simp [setQueue_queue, hq]
  · simp [setProc_proc, hx]
  · intro p hp
    by_cases hpx : p = x
    · subst hpx; simp [setProc_proc, hp]
    · simp [setProc_proc, hp, hpx]
  · simp [setProc_proc, hx]
  · simp [setProc_proc, hx]
  · intro p hp
    obtain rfl : x = p := by simpa using hp
    simp
  · simp
  · intro p hp hpx
    have hpx : p ≠ x := fun e => hpx (by simp [e])
    simp [setProc_proc, hp, hpx]
  · intro p hp _
    by_cases hpx : p = x
    · subst hpx; simp [setProc_proc, hp]
    · simp [setProc_proc, hp, hpx]

/-- The end of a longer queue, where no process behind the head is outranked. -/
theorem place_last {x y : PId} {l : List PId} (h : QueueWf s q (x :: y :: l))
    (hn : new ∉ x :: y :: l)
    (hfind : ∀ t : Sched, t.proc = s.proc → findPlace new NPROC (some y) t = (.ok none, t)) :
    ∃ s', insertProcIntoQueue new (some q) s = (.ok (), s') ∧
      Relinked s q new (x :: y :: l) (x :: y :: l ++ [new]) (fun t => { t with curr := some q })
      s' := by
  obtain ⟨t, ht⟩ : ∃ t, (x :: y :: l).getLast? = some t :=
    ⟨_, List.getLast?_eq_some_getLast (by simp)⟩
  have hnt : new ≠ t := fun e => hn (e ▸ List.mem_of_getLast? ht)
  have hnext : (s.proc x).next = some y := by simpa using h.linked.next_head
  have htail : (s.queue q).tail = some t := ((tailOf_iff (by simp)).mp h.tail_of).trans ht
  have hsplit : x :: y :: l = (x :: y :: l) ++ [] := (List.append_nil _).symm
  refine ⟨_, insertProcIntoQueue_last hst hc hlock h.head_eq hnext hfind htail hnt, ?_⟩
  rw [hsplit] at h hn
  have hrel : Relinked s q new _ _ (fun t => { t with curr := some q })
      (((s.setProc new fun p => { p with next := none, prev := some t, curr := some q }).setProc t
        fun p => { p with next := some new }).setQueue q fun pq =>
        { pq with tail := some new, len := pq.len + 1 }) :=
    h.insert_of_splice _ _ hn rfl rfl ?_ ?_ ?_ ?_ ?_ ?_ ?_ ?_ ?_ ?_ ?_ ?_ ?_
  · rwa [List.append_nil] at hrel
  · simpa using hlock
  · simp
  · simpa using h.head_eq
  · rw [tailOf_iff (by simp), List.getLast?_append_cons]
    simp
  · intro q' hq; simp [setQueue_queue, hq]
  · simp [setProc_proc, hnt]
  · intro p hp
    by_cases hpt : p = t
    · subst hpt; simp [setProc_proc, hp]
    · simp [setProc_proc, hp, hpt]
  · simp [setProc_proc, hnt]
  · simp [setProc_proc, hnt, ht]
  · intro p hp
    obtain rfl : t = p := by simpa [ht] using hp
    simp
  · simp
  · intro p hp hpt
    have hpt : p ≠ t := fun e => hpt (by simp [e, ht])
    simp [setProc_proc, hp, hpt]
  · intro p hp _
    by_cases hpt : p = t
    · subst hpt; simp [setProc_proc, hp]
    · simp [setProc_proc, hp, hpt]

/-- Before a process behind the head. -/
theorem place_before {x this : PId} {l1 l2 : List PId} (h : QueueWf s q (x :: l1 ++ this :: l2))
    (hn : new ∉ x :: l1 ++ this :: l2)
    (hfind : ∀ t : Sched, t.proc = s.proc →
      findPlace new NPROC (l1 ++ this :: l2).head? t = (.ok (some this), t)) :
    ∃ s', insertProcIntoQueue new (some q) s = (.ok (), s') ∧
      Relinked s q new (x :: l1 ++ this :: l2) (x :: l1 ++ new :: this :: l2)
        (fun t => { t with curr := some q }) s' := by
  obtain ⟨b, hb⟩ : ∃ b, (x :: l1).getLast? = some b := ⟨_, List.getLast?_eq_some_getLast (by simp)⟩
  have hbm : b ∈ x :: l1 := List.mem_of_getLast? hb
  have hne : ∀ p ∈ x :: l1 ++ this :: l2, new ≠ p := fun p hp e => hn (e ▸ hp)
  have hnb : new ≠ b := hne b (List.mem_append_left (this :: l2) hbm)
  have hnt : new ≠ this := hne this (by simp)
  have hbt : b ≠ this := fun e =>
    (List.nodup_append.mp h.linked.nodup).2.2 b hbm this (by simp) e
  have hprev : (s.proc this).prev = some b := by
    rw [← hb]
    exact h.linked.prev_eq (x :: l1) this l2 rfl
  obtain ⟨y, hy⟩ : ∃ y, (l1 ++ this :: l2).head? = some y := by
    cases l1 with
    | nil => exact ⟨this, rfl⟩
    | cons y l1 => exact ⟨y, rfl⟩
  have hnext : (s.proc x).next = some y := by
    rw [← hy]
    exact h.linked.next_eq [] x (l1 ++ this :: l2) rfl
  rw [hy] at hfind
  refine ⟨_, insertProcIntoQueue_before hst hc hlock h.head_eq hnext hfind hprev hnb hnt hbt,
    h.insert_of_splice _ _ hn rfl rfl ?_ ?_ ?_ ?_ ?_ ?_ ?_ ?_ ?_ ?_ ?_ ?_ ?_⟩
  · simpa using hlock
  · simp
  · simpa using h.head_eq
  · rw [tailOf_iff (by simp; omega), List.getLast?_append_cons, List.getLast?_cons_cons]
    have htail := (tailOf_iff (by simp; omega)).mp h.tail_of
    rw [List.getLast?_append_cons] at htail
    simpa using htail
  · intro q' hq; simp [setQueue_queue, hq]
  · simp [setProc_proc, hnt, hnb]
  · intro p hp
    by_cases hpb : p = b
    · subst hpb; simp [setProc_proc, hp, hbt]
    · by_cases hpt : p = this
      · subst hpt; simp [setProc_proc, hp, hpb]
      · simp [setProc_proc, hp, hpb, hpt]
  · simp [setProc_proc, hnt, hnb]
  · simp [setProc_proc, hnt, hnb, hb]
  · intro p hp
    obtain rfl : b = p := by simpa [hb] using hp
    simp [setProc_proc, hbt]
  · intro p hp
    obtain rfl : this = p := by simpa using hp
    simp
  · intro p hp hpb
    have hpb : p ≠ b := fun e => hpb (by simp [e, hb])
    by_cases hpt : p = this
    · subst hpt; simp [setProc_proc, hp, hpb]
    · simp [setProc_proc, hp, hpb, hpt]
  · intro p hp hpt
    have hpt : p ≠ this := fun e => hpt (by simp [e])
    by_cases hpb : p = b
    · subst hpb; simp [setProc_proc, hp, hpt]
    · simp [setProc_proc, hp, hpb, hpt]

theorem place_many {x y : PId} {l : List PId} (h : QueueWf s q (x :: y :: l))
    (hn : new ∉ x :: y :: l) : ∃ s', insertProcIntoQueue new (some q) s = (.ok (), s') ∧
    Placed s q new (x :: y :: l) s' := by
  set ranked : PId → Bool := fun p => !outranks (s.task new) (s.task p)
  have hsplit : (y :: l).takeWhile ranked ++ (y :: l).dropWhile ranked = y :: l :=
    List.takeWhile_append_dropWhile
  have hplace : Abs.place s.task new (x :: y :: l) =
      x :: (y :: l).takeWhile ranked ++ new :: (y :: l).dropWhile ranked := by
    rw [Abs.place, Abs.placeBehind_eq]
    rfl
  have hlen := length_le_of_nodup h.linked.nodup
  have hfind : ∀ t : Sched, t.proc = s.proc →
      findPlace new NPROC (some y) t = (.ok ((y :: l).dropWhile ranked).head?, t) := by
    intro t ht
    have hfuel : (y :: l).length ≤ NPROC := by simp only [List.length_cons] at hlen ⊢; omega
    have hfind : findPlace new NPROC (y :: l).head? t = _ :=
      findPlace_ok [x] (y :: l) (by rw [ht]; exact h.linked) hfuel
    rwa [ht] at hfind
  cases hd : (y :: l).dropWhile ranked with
  | nil =>
    rw [hd] at hfind hplace hsplit
    rw [List.append_nil] at hsplit
    rw [hsplit] at hplace
    obtain ⟨s', hs', hrel⟩ := place_last hlock hst hc h hn hfind
    exact ⟨s', hs', ⟨hplace ▸ hrel, fun he => by simp at he⟩⟩
  | cons this d =>
    rw [hd] at hfind hplace hsplit
    have hwhole : x :: y :: l = x :: (y :: l).takeWhile ranked ++ this :: d :=
      congrArg (x :: ·) hsplit.symm
    obtain ⟨s', hs', hrel⟩ := place_before hlock hst hc (hwhole ▸ h) (hwhole ▸ hn) (by rwa [hsplit])
    rw [← hplace, ← hwhole] at hrel
    exact ⟨s', hs', ⟨hrel, fun he => by simp at he⟩⟩

/-- Insertion into a well-formed queue places the process in the queue's list. -/
theorem insert_places {l : List PId} (h : QueueWf s q l) (hn : new ∉ l) :
    ∃ s', insertProcIntoQueue new (some q) s = (.ok (), s') ∧ Placed s q new l s' := by
  match l, h, hn with
  | [], h, _ => exact place_nil hlock hst hc h
  | [x], h, hn => exact place_one hlock hst hc h (by simpa using hn)
  | x :: y :: l, h, hn => exact place_many hlock hst hc h hn

end

/-- Where a state represents an abstract one, so does the state that a change of one queue
leaves. -/
theorem Rep.of_relinked {s' : Sched} {a' : Abs} {p : PId} {l' : List PId} {f : Task → Task}
    (h : Rep s a) (hr : Relinked s q p (a.list q) l' f s')
    (htask : a'.task = Function.update a.task p (f (a.task p)))
    (hlist : a'.list = Function.update a.list q l') (henv : a'.env = a.env)
    (hp : ∀ q', q' ≠ q → p ∉ a.list q') (hsub : ∀ x ∈ l', x = p ∨ x ∈ a.list q) : Rep s' a' := by
  have hself : a'.list q = l' := by rw [hlist, Function.update_self]
  refine h.relink q (fun p' => ?_) (by rw [hr.env_eq, h.env_eq, henv])
    (by rw [hr.check_eq, h.checkUnlocked]) hr.unlocked (hself ▸ hr.wf) hr.queue_eq
    (fun q' hq => by rw [hlist, Function.update_of_ne hq]) ?_ ?_
  · by_cases hp' : p' = p
    · rw [hp', hr.task_self, h.task_eq, htask, Function.update_self]
    · rw [hr.task_eq p' hp', h.task_eq, htask, Function.update_of_ne hp']
  · intro q' hq p' hp'
    refine hr.links_eq p' (fun hc => hq (h.disjoint q' q p' hp' hc)) fun e => hp q' hq (e ▸ hp')
  · intro q' hq p' hp' hc
    rw [hself] at hp'
    rcases hsub p' hp' with rfl | hmem
    · exact hp q' hq hc
    · exact hq (h.disjoint q' q p' hc hmem)

/-- What insertion leaves: the abstract insertion is represented, the other queues
are untouched, and `tail` is set only from the second process on. -/
structure Inserted (s : Sched) (a : Abs) (new : PId) (q : QId) (s' : Sched) : Prop where
  rep : Rep s' (a.insert new q)
  queue_eq : ∀ q', q' ≠ q → s'.queue q' = s.queue q'
  tail_eq : a.list q = [] → (s'.queue q).tail = (s.queue q).tail

/-- `insert_proc_into_queue` refines placing in a list.  The process must be
linked nowhere, must not be `RUNNING`, and must not have a `curr` that says it
is in the queue already. -/
theorem insert_refines (h : Rep s a) (hn : a.Unlinked new) (hst : (s.proc new).state ≠ .running)
    (hc : (s.proc new).curr ≠ some q) :
    ∃ s', insertProcIntoQueue new (some q) s = (.ok (), s') ∧ Inserted s a new q s' := by
  have htask : s.task = a.task := funext h.task_eq
  obtain ⟨s', hs', hrel, htail⟩ := insert_places (h.unlocked q) hst hc (h.wf q) (hn q)
  rw [htask] at hrel
  refine ⟨s', hs', h.of_relinked hrel rfl rfl rfl (fun q' _ => hn q') fun x hx => ?_,
    hrel.queue_eq, htail⟩
  exact Abs.mem_place.mp hx

/-! ## Removal -/

theorem finishRemove_ok (h : (s.queue q).qloc = true) (hk : s.checkLock = false) :
    finishRemove old q s = (.ok (),
      (s.setProc old fun p => { toTask := p.toTask.unclaimed, next := none, prev := none }).setQueue
        q fun pq => { pq with qloc := false, len := pq.len - 1 }) := by
  have hk' : ((s.setQueue q fun pq => { pq with len := pq.len - 1 }).setProc old fun p =>
      { p with next := none, prev := none }).checkLock = false := hk
  simp [finishRemove, bind_of_ok (unclaimProc_ok hk'), release, h]
  simp [setQueue, setProc]

/-- Removal of the only process. -/
theorem removeProcFromQueue_only (hst : (s.proc old).state ≠ .running)
    (hl : (s.queue q).qloc = false) (hk : s.checkLock = false)
    (hh : (s.queue q).head = some old) (hn : (s.proc old).next = none) :
    removeProcFromQueue old (some q) s = (.ok (),
      (s.setProc old fun p => { toTask := p.toTask.unclaimed, next := none, prev := none }).setQueue
        q fun pq => { pq with head := none, tail := none, len := pq.len - 1 }) := by
  simp [removeProcFromQueue, hh, hst, bind_of_ok (acquire_ok hl), hn, finishRemove_ok, hk]
  simp [setQueue, setProc, hl]

/-- Removal of the head, with `n` behind it. -/
theorem removeProcFromQueue_head {n : PId} (hst : (s.proc old).state ≠ .running)
    (hl : (s.queue q).qloc = false) (hk : s.checkLock = false)
    (hh : (s.queue q).head = some old) (hn : (s.proc old).next = some n) (hne : old ≠ n) :
    removeProcFromQueue old (some q) s = (.ok (),
      ((s.setProc old fun p =>
        { toTask := p.toTask.unclaimed, next := none, prev := none }).setProc n fun p =>
          { p with prev := none }).setQueue q fun pq =>
            { pq with head := some n, len := pq.len - 1 }) := by
  simp [removeProcFromQueue, hh, hst, bind_of_ok (acquire_ok hl), hn, finishRemove_ok, hk]
  simp [setQueue, setProc, hl, hne, Ne.symm hne, Function.update_comm hne]

/-- Removal of the last process, behind `b`. -/
theorem removeProcFromQueue_last {h b : PId} (hst : (s.proc old).state ≠ .running)
    (hl : (s.queue q).qloc = false) (hk : s.checkLock = false)
    (hh : (s.queue q).head = some h) (hho : h ≠ old)
    (hf : ∀ t : Sched, t.proc = s.proc → findProc old NPROC (some h) t = (.ok true, t))
    (hb : (s.proc old).prev = some b) (hn : (s.proc old).next = none) (hbo : b ≠ old) :
    removeProcFromQueue old (some q) s = (.ok (),
      ((s.setProc old fun p =>
        { toTask := p.toTask.unclaimed, next := none, prev := none }).setProc b fun p =>
          { p with next := none }).setQueue q fun pq =>
            { pq with tail := some b, len := pq.len - 1 }) := by
  have hf := hf (s.setQueue q fun pq => { pq with qloc := true }) rfl
  simp [removeProcFromQueue, hh, hst, bind_of_ok (acquire_ok hl), hho, bind_of_ok hf, hb, hn,
    finishRemove_ok, hk]
  simp [setQueue, setProc, hl, hbo, Ne.symm hbo, Function.update_comm hbo]

/-- Removal from between `b` and `n`. -/
theorem removeProcFromQueue_between {h b n : PId} (hst : (s.proc old).state ≠ .running)
    (hl : (s.queue q).qloc = false) (hk : s.checkLock = false)
    (hh : (s.queue q).head = some h) (hho : h ≠ old)
    (hf : ∀ t : Sched, t.proc = s.proc → findProc old NPROC (some h) t = (.ok true, t))
    (hb : (s.proc old).prev = some b) (hn : (s.proc old).next = some n) (hbo : b ≠ old)
    (hno : n ≠ old) (hbn : b ≠ n) :
    removeProcFromQueue old (some q) s = (.ok (),
      (((s.setProc old fun p =>
        { toTask := p.toTask.unclaimed, next := none, prev := none }).setProc b fun p =>
          { p with next := some n }).setProc n fun p => { p with prev := some b }).setQueue q
            fun pq => { pq with len := pq.len - 1 }) := by
  have hf := hf (s.setQueue q fun pq => { pq with qloc := true }) rfl
  simp [removeProcFromQueue, hh, hst, bind_of_ok (acquire_ok hl), hho, bind_of_ok hf, hb, hn,
    finishRemove_ok, hk]
  simp [setQueue, setProc, hl, hbo, hno, Ne.symm hbo, Ne.symm hno, Ne.symm hbn,
    Function.update_comm hbo, Function.update_comm hno, Function.update_comm hbn]

/-- The relinking every path of removal amounts to, as a change of the queue's list. -/
theorem QueueWf.remove_of_splice {s' : Sched} (l1 l2 : List PId) (h : QueueWf s q (l1 ++ old :: l2))
    (henv : s'.toEnv = s.toEnv) (hcheck : s'.checkLock = s.checkLock)
    (hlock : (s'.queue q).qloc = false) (hlen : (s'.queue q).len = (s.queue q).len - 1)
    (hhead : (s'.queue q).head = (l1 ++ l2).head?)
    (htail : TailOf (s'.queue q).tail (l1 ++ l2))
    (hqueue : ∀ q', q' ≠ q → s'.queue q' = s.queue q')
    (hold : (s'.proc old).toTask = (s.proc old).toTask.unclaimed)
    (hother : ∀ p, p ≠ old → (s'.proc p).toTask = (s.proc p).toTask)
    (hnl : ∀ p, l1.getLast? = some p → (s'.proc p).next = l2.head?)
    (hph : ∀ p, l2.head? = some p → (s'.proc p).prev = l1.getLast?)
    (hno : ∀ p, p ≠ old → l1.getLast? ≠ some p → (s'.proc p).next = (s.proc p).next)
    (hpo : ∀ p, p ≠ old → l2.head? ≠ some p → (s'.proc p).prev = (s.proc p).prev) :
    Relinked s q old (l1 ++ old :: l2) (l1 ++ l2) Task.unclaimed s' := by
  have hnd := List.nodup_cons.mp (List.nodup_middle.mp h.linked.nodup)
  have hne : ∀ p ∈ l1 ++ l2, p ≠ old := fun p hp e => hnd.1 (e ▸ hp)
  refine ⟨⟨h.linked.splice_out hnl hph (fun p hp => hno p (hne p hp))
    (fun p hp => hpo p (hne p hp)), hhead, htail, ?_⟩, hlock, henv, hcheck, hqueue, hold, hother,
    fun p hp hpo' => ⟨?_, ?_⟩⟩
  · rw [hlen, h.len_eq]; simp; omega
  · exact hno p hpo' fun hc => hp (List.mem_append_left _ (List.mem_of_getLast? hc))
  · exact hpo p hpo' fun hc => hp (by simp [List.mem_of_head? hc])

/-- What removal does to a queue: `old` is erased from its list and left unlinked, and
removing the only process clears `tail`. -/
structure Erased (s : Sched) (q : QId) (old : PId) (l : List PId) (s' : Sched) : Prop extends
    Relinked s q old l (l.erase old) Task.unclaimed s' where
  next_eq : (s'.proc old).next = none
  prev_eq : (s'.proc old).prev = none
  tail_eq : l = [old] → (s'.queue q).tail = none

section

variable (hlock : (s.queue q).qloc = false) (hcheck : s.checkLock = false)
  (hst : (s.proc old).state ≠ .running)

include hlock hcheck hst

theorem erase_head {l : List PId} (h : QueueWf s q (old :: l)) :
    ∃ s', removeProcFromQueue old (some q) s = (.ok (), s') ∧ Erased s q old (old :: l) s' := by
  cases l with
  | nil =>
    refine ⟨_, removeProcFromQueue_only hst hlock hcheck h.head_eq
      (by simpa using h.linked.next_head), ⟨?_, by simp, by simp, by simp⟩⟩
    rw [List.erase_cons_head]
    refine QueueWf.remove_of_splice [] [] h rfl rfl ?_ ?_ ?_ ?_ ?_ ?_ ?_ ?_ ?_ ?_ ?_
    · simpa using hlock
    · simp
    · simp
    · simp [TailOf]
    · intro q' hq; simp [setQueue_queue, hq]
    · simp
    · intro p hp; simp [setProc_proc, hp]
    · simp
    · simp
    · intro p hp _; simp [setProc_proc, hp]
    · intro p hp _; simp [setProc_proc, hp]
  | cons n l =>
    have hne : old ≠ n := fun e => (List.nodup_cons.mp h.linked.nodup).1 (by simp [e])
    refine ⟨_, removeProcFromQueue_head hst hlock hcheck h.head_eq
      (by simpa using h.linked.next_head) hne, ⟨?_, by simp [setProc_proc,
        hne], by simp [setProc_proc, hne], fun he => by simp at he⟩⟩
    rw [List.erase_cons_head]
    refine QueueWf.remove_of_splice [] (n :: l) h rfl rfl ?_ ?_ ?_ ?_ ?_ ?_ ?_ ?_ ?_ ?_ ?_
    · simpa using hlock
    · simp
    · simp
    · have htail := (tailOf_iff (by simp)).mp h.tail_of
      cases l with
      | nil => exact .inr (by simpa using htail)
      | cons m l => simpa [TailOf] using htail
    · intro q' hq; simp [setQueue_queue, hq]
    · simp [setProc_proc, hne]
    · intro p hp
      by_cases hpn : p = n
      · subst hpn; simp [setProc_proc, hp]
      · simp [setProc_proc, hp, hpn]
    · simp
    · intro p hp
      obtain rfl : n = p := by simpa using hp
      simp
    · intro p hp _
      by_cases hpn : p = n
      · subst hpn; simp [setProc_proc, hp]
      · simp [setProc_proc, hp, hpn]
    · intro p hp hpn
      have hpn : p ≠ n := fun e => hpn (by simp [e])
      simp [setProc_proc, hp, hpn]

theorem erase_behind {x : PId} {l1 l2 : List PId} (h : QueueWf s q (x :: l1 ++ old :: l2)) :
    ∃ s', removeProcFromQueue old (some q) s = (.ok (), s') ∧
      Erased s q old (x :: l1 ++ old :: l2) s' := by
  have hlen := length_le_of_nodup h.linked.nodup
  obtain ⟨b, hb⟩ : ∃ b, (x :: l1).getLast? = some b :=
    ⟨_, List.getLast?_eq_some_getLast (by simp)⟩
  have hbm : b ∈ x :: l1 := List.mem_of_getLast? hb
  have hnd := List.nodup_cons.mp (List.nodup_middle.mp h.linked.nodup)
  have hne : ∀ p ∈ x :: l1 ++ l2, p ≠ old := fun p hp e => hnd.1 (e ▸ hp)
  have hbo : b ≠ old := hne b (List.mem_append_left l2 hbm)
  have hxo : x ≠ old := hne x (by simp)
  have hprev : (s.proc old).prev = some b := hb ▸ h.linked.prev_eq (x :: l1) old l2 rfl
  have hnext : (s.proc old).next = l2.head? := h.linked.next_eq (x :: l1) old l2 rfl
  have hf : ∀ t : Sched, t.proc = s.proc → findProc old NPROC (some x) t = (.ok true, t) :=
    fun t ht => findProc_ok [] (x :: l1 ++ old :: l2) (by rw [ht]; exact h.linked) hlen (by simp)
  have htail := (tailOf_iff (by simp; omega)).mp h.tail_of
  rw [List.getLast?_append_cons] at htail
  have herase : (x :: l1 ++ old :: l2).erase old = x :: l1 ++ l2 := by
    rw [List.erase_append_right _ fun hc => hnd.1 (List.mem_append_left _ hc), List.erase_cons_head]
  cases l2 with
  | nil =>
    refine ⟨_, removeProcFromQueue_last hst hlock hcheck h.head_eq hxo hf hprev hnext hbo,
      ⟨?_, by simp [setProc_proc, Ne.symm hbo], by simp [setProc_proc, Ne.symm hbo],
        fun he => by simp at he⟩⟩
    rw [herase]
    refine h.remove_of_splice _ _ rfl rfl ?_ ?_ ?_ ?_ ?_ ?_ ?_ ?_ ?_ ?_ ?_
    · simpa using hlock
    · simp
    · simpa using h.head_eq
    · rw [List.append_nil]
      cases l1 with
      | nil => exact .inr (by simpa using hb.symm)
      | cons y l1 => rw [tailOf_iff (by simp), hb]; simp
    · intro q' hq; simp [setQueue_queue, hq]
    · simp [setProc_proc, Ne.symm hbo]
    · intro p hp
      by_cases hpb : p = b
      · subst hpb; simp [setProc_proc, hp]
      · simp [setProc_proc, hp, hpb]
    · intro p hp
      obtain rfl : b = p := by simpa [hb] using hp
      simp
    · simp
    · intro p hp hpb
      have hpb : p ≠ b := fun e => hpb (by rw [e, hb])
      simp [setProc_proc, hp, hpb]
    · intro p hp _
      by_cases hpb : p = b
      · subst hpb; simp [setProc_proc, hp]
      · simp [setProc_proc, hp, hpb]
  | cons n l2 =>
    have hno : n ≠ old := hne n (by simp)
    have hbn : b ≠ n := (List.nodup_append.mp hnd.2).2.2 b hbm n (by simp)
    refine ⟨_, removeProcFromQueue_between hst hlock hcheck h.head_eq hxo hf hprev
      hnext hbo hno hbn, ⟨?_, by simp [setProc_proc, Ne.symm hbo, Ne.symm hno],
        by simp [setProc_proc, Ne.symm hbo, Ne.symm hno], fun he => by simp at he⟩⟩
    rw [herase]
    refine h.remove_of_splice _ _ rfl rfl ?_ ?_ ?_ ?_ ?_ ?_ ?_ ?_ ?_ ?_ ?_
    · simpa using hlock
    · simp
    · simpa using h.head_eq
    · rw [tailOf_iff (by simp; omega), List.getLast?_append_cons]
      simpa using htail
    · intro q' hq; simp [setQueue_queue, hq]
    · simp [setProc_proc, Ne.symm hbo, Ne.symm hno]
    · intro p hp
      by_cases hpb : p = b
      · subst hpb; simp [setProc_proc, hp, hbn]
      · by_cases hpn : p = n
        · subst hpn; simp [setProc_proc, hp, hpb]
        · simp [setProc_proc, hp, hpb, hpn]
    · intro p hp
      obtain rfl : b = p := by simpa [hb] using hp
      simp [setProc_proc, hbn]
    · intro p hp
      obtain rfl : n = p := by simpa using hp
      simp [hb]
    · intro p hp hpb
      have hpb : p ≠ b := fun e => hpb (by rw [e, hb])
      by_cases hpn : p = n
      · subst hpn; simp [setProc_proc, hp, hpb]
      · simp [setProc_proc, hp, hpb, hpn]
    · intro p hp hpn
      have hpn : p ≠ n := fun e => hpn (by simp [e])
      by_cases hpb : p = b
      · subst hpb; simp [setProc_proc, hp, hpn]
      · simp [setProc_proc, hp, hpb, hpn]

/-- Removal of a process of a well-formed queue erases it from the queue's list. -/
theorem remove_erases {l : List PId} (h : QueueWf s q l) (hm : old ∈ l) :
    ∃ s', removeProcFromQueue old (some q) s = (.ok (), s') ∧ Erased s q old l s' := by
  obtain ⟨l1, l2, rfl⟩ := List.append_of_mem hm
  cases l1 with
  | nil => exact erase_head hlock hcheck hst h
  | cons x l1 => exact erase_behind hlock hcheck hst h

end

/-- What removal leaves: the abstract removal is represented, the other queues are
untouched, and removing the only process clears `tail`. -/
structure Removed (s : Sched) (a : Abs) (old : PId) (q : QId) (s' : Sched) : Prop where
  rep : Rep s' (a.remove old q)
  queue_eq : ∀ q', q' ≠ q → s'.queue q' = s.queue q'
  tail_eq : a.list q = [old] → (s'.queue q).tail = none

/-- `remove_proc_from_queue` refines erasing from a list, for a process that is
in the queue and not `RUNNING`. -/
theorem remove_refines (h : Rep s a) (hst : (s.proc old).state ≠ .running) (hm : old ∈ a.list q) :
    ∃ s', removeProcFromQueue old (some q) s = (.ok (), s') ∧ Removed s a old q s' := by
  obtain ⟨s', hs', hrel, -, -, htail⟩ := remove_erases (h.unlocked q) h.checkUnlocked
    hst (h.wf q) hm
  refine ⟨s', hs', h.of_relinked hrel rfl rfl rfl ?_ ?_, hrel.queue_eq, htail⟩
  · exact fun q' hq hc => hq (h.disjoint q' q old hc hm)
  · exact fun x hx => .inr (List.mem_of_mem_erase hx)

end Xv6Rework
