import Xv6Rework.Lib.DLinked
import Xv6Rework.Data.Queue
import Mathlib.Data.Fintype.Card

/-!
# The scheduler with lists for queues

What the process queues are *for*: each queue is a list of processes, insertion
places a process in a list, removal erases it.  An `Abs` is a scheduler state in
which the pointers `head`, `tail`, `next`, `prev` and the counter `len` have
been replaced by such lists.

`Rep s a` relates a state of `Sched/State.lean` to the abstract state it
represents: every queue is a well-formed doubly linked list of the processes in
the abstract list, no process is linked in two queues, and no lock of a queue is
held.  That every operation of `Data/Queue.lean` respects `Rep` is proved in
`Data/QueueSpec.lean`.
-/

namespace Xv6Rework

/-! ## Well-formed queues -/

/-- What `tail` may be for a queue with list `l`: the last of two or more
processes; for a single process null or that process, since the first insertion
does not set `tail`; and null for an empty queue. -/
def TailOf (t : Option PId) : List PId → Prop
  | [] => t = none
  | [a] => t = none ∨ t = some a
  | a :: b :: l => t = (a :: b :: l).getLast?

/-- The queue `q` is a well-formed doubly linked list of `l`. -/
structure QueueWf (s : Sched) (q : QId) (l : List PId) : Prop where
  linked : DLinked (fun p => (s.proc p).next) (fun p => (s.proc p).prev) l
  head_eq : (s.queue q).head = l.head?
  tail_of : TailOf (s.queue q).tail l
  len_eq : (s.queue q).len = l.length

instance decidableTailOf (t : Option PId) : ∀ l, Decidable (TailOf t l)
  | [] => inferInstanceAs (Decidable (t = none))
  | [a] => inferInstanceAs (Decidable (t = none ∨ t = some a))
  | a :: b :: l => inferInstanceAs (Decidable (t = (a :: b :: l).getLast?))

instance (s : Sched) (q : QId) (l : List PId) : Decidable (QueueWf s q l) :=
  decidable_of_iff (DLinked (fun p => (s.proc p).next) (fun p => (s.proc p).prev) l ∧
      (s.queue q).head = l.head? ∧ TailOf (s.queue q).tail l ∧ (s.queue q).len = l.length)
    ⟨fun ⟨h1, h2, h3, h4⟩ => ⟨h1, h2, h3, h4⟩, fun ⟨h1, h2, h3, h4⟩ => ⟨h1, h2, h3, h4⟩⟩

/-- The processes met by following `next` from the head of `q`. -/
def Sched.links (s : Sched) (q : QId) : List PId :=
  followLinks (fun p => (s.proc p).next) NPROC (s.queue q).head

/-- A list of distinct processes is no longer than the process table. -/
theorem length_le_of_nodup {l : List PId} (h : l.Nodup) : l.length ≤ NPROC := by
  simpa using h.length_le_card

/-- A well-formed queue links exactly its list. -/
theorem QueueWf.links_eq {s : Sched} {q : QId} {l : List PId} (h : QueueWf s q l) :
    s.links q = l := by
  rw [Sched.links, h.head_eq]
  exact h.linked.toSLinked.followLinks_eq (length_le_of_nodup h.linked.nodup)

/-! ## Abstract states -/

/-- A scheduler state with lists for queues. -/
structure Abs where
  task : PId → Task
  list : QId → List PId
  env : Env

namespace Abs

/-- `new` placed in the part of a queue behind its head: before the first process
it outranks, or at the end. -/
def placeBehind (task : PId → Task) (new : PId) : List PId → List PId
  | [] => [new]
  | p :: l =>
    if outranks (task new) (task p) then new :: p :: l else p :: placeBehind task new l

/-- `new` placed in a queue; the head is never overtaken. -/
def place (task : PId → Task) (new : PId) : List PId → List PId
  | [] => [new]
  | h :: l => h :: placeBehind task new l

/-- Change one task. -/
def setTask (a : Abs) (p : PId) (f : Task → Task) : Abs :=
  { a with task := Function.update a.task p (f (a.task p)) }

/-- Change one list. -/
def setList (a : Abs) (q : QId) (l : List PId) : Abs :=
  { a with list := Function.update a.list q l }

/-- Insertion of a process into a queue. -/
def insert (a : Abs) (new : PId) (q : QId) : Abs :=
  (a.setList q (place a.task new (a.list q))).setTask new fun t => { t with curr := some q }

/-- Removal of a process from a queue. -/
def remove (a : Abs) (old : PId) (q : QId) : Abs :=
  (a.setList q ((a.list q).erase old)).setTask old Task.unclaimed

/-- A process linked nowhere. -/
def Unlinked (a : Abs) (p : PId) : Prop := ∀ q, p ∉ a.list q

section

variable (a : Abs) (p p' : PId) (q q' : QId) (f : Task → Task) (l : List PId)

theorem setTask_task : (a.setTask p f).task p' = if p' = p then f (a.task p) else a.task p' := by
  simp [setTask, Function.update_apply]

@[simp] theorem setTask_task_self : (a.setTask p f).task p = f (a.task p) := by simp [setTask]
@[simp] theorem setTask_list : (a.setTask p f).list = a.list := rfl
@[simp] theorem setTask_env : (a.setTask p f).env = a.env := rfl
@[simp] theorem setList_task : (a.setList q l).task = a.task := rfl
@[simp] theorem setList_env : (a.setList q l).env = a.env := rfl
@[simp] theorem setList_list_self : (a.setList q l).list q = l := by simp [setList]

theorem setList_list : (a.setList q l).list q' = if q' = q then l else a.list q' := by
  simp [setList, Function.update_apply]

end

theorem mem_placeBehind {task : PId → Task} {new p : PId} {l : List PId} :
    p ∈ placeBehind task new l ↔ p = new ∨ p ∈ l := by
  induction l with
  | nil => simp [placeBehind]
  | cons x l ih =>
    simp only [placeBehind]
    split
    · simp
    · rw [List.mem_cons, ih, List.mem_cons]; tauto

@[simp] theorem mem_place {task : PId → Task} {new p : PId} {l : List PId} :
    p ∈ place task new l ↔ p = new ∨ p ∈ l := by
  cases l with
  | nil => simp [place]
  | cons h l => rw [place, List.mem_cons, mem_placeBehind, List.mem_cons]; tauto

/-- Behind the head, placing splits the list before the first outranked process. -/
theorem placeBehind_eq (task : PId → Task) (new : PId) (l : List PId) :
    placeBehind task new l =
      l.takeWhile (fun p => !outranks (task new) (task p)) ++
        new :: l.dropWhile (fun p => !outranks (task new) (task p)) := by
  induction l with
  | nil => rfl
  | cons p l ih =>
    cases h : outranks (task new) (task p) with
    | true => simp [placeBehind, h]
    | false => simp [placeBehind, h, ih]

/-- A placed process stands in front of the first process behind the head that it
outranks. -/
theorem place_eq_append (task : PId → Task) (new : PId) (l : List PId) :
    ∃ l1, place task new l =
      l1 ++ new :: l.tail.dropWhile (fun p => !outranks (task new) (task p)) := by
  cases l with
  | nil => exact ⟨[], rfl⟩
  | cons h l => exact ⟨h :: l.takeWhile _, by rw [place, placeBehind_eq]; rfl⟩

/-- `dropWhile` reads its test on the list only. -/
theorem dropWhile_congr {f g : PId → Bool} {l : List PId} (h : ∀ x ∈ l, f x = g x) :
    l.dropWhile f = l.dropWhile g := by
  induction l with
  | nil => rfl
  | cons x l ih =>
    simp only [List.dropWhile_cons, h x (by simp), ih fun y hy => h y (by simp [hy])]

/-- Membership after an insertion. -/
theorem mem_insert {a : Abs} {p p' : PId} {q q' : QId} :
    p' ∈ (a.insert p q).list q' ↔ p' ∈ a.list q' ∨ (q' = q ∧ p' = p) := by
  rw [Abs.insert, setTask_list, setList_list]
  split
  · next e => subst e; rw [mem_place]; tauto
  · tauto

/-- Membership after a removal. -/
theorem mem_remove {a : Abs} {p p' : PId} {q q' : QId} (hnd : (a.list q).Nodup) :
    p' ∈ (a.remove p q).list q' ↔ p' ∈ a.list q' ∧ ¬(q' = q ∧ p' = p) := by
  rw [Abs.remove, setTask_list, setList_list]
  split
  · next e => subst e; rw [hnd.mem_erase_iff]; tauto
  · tauto

end Abs

/-! ## Representation -/

/-- `s` represents `a`. -/
structure Rep (s : Sched) (a : Abs) : Prop where
  task_eq : ∀ p, (s.proc p).toTask = a.task p
  env_eq : s.toEnv = a.env
  wf : ∀ q, QueueWf s q (a.list q)
  disjoint : ∀ q q' p, p ∈ a.list q → p ∈ a.list q' → q = q'
  unlocked : ∀ q, (s.queue q).qloc = false
  checkUnlocked : s.checkLock = false

/-- A well-formed queue stays so when neither the queue nor the links of its
processes are touched. -/
theorem QueueWf.congr {s s' : Sched} {q : QId} {l : List PId} (h : QueueWf s q l)
    (hq : s'.queue q = s.queue q)
    (hl : ∀ p ∈ l, (s'.proc p).next = (s.proc p).next ∧ (s'.proc p).prev = (s.proc p).prev) :
    QueueWf s' q l where
  linked := h.linked.congr (fun p hp => (hl p hp).1) (fun p hp => (hl p hp).2)
  head_eq := by rw [hq]; exact h.head_eq
  tail_of := by rw [hq]; exact h.tail_of
  len_eq := by rw [hq]; exact h.len_eq

/-- A change of one queue and of tasks represents a change of one list. -/
theorem Rep.relink {s s' : Sched} {a a' : Abs} (h : Rep s a) (q : QId)
    (htask : ∀ p, (s'.proc p).toTask = a'.task p) (henv : s'.toEnv = a'.env)
    (hcheck : s'.checkLock = false) (hlock : (s'.queue q).qloc = false)
    (hwf : QueueWf s' q (a'.list q))
    (hqueue : ∀ q', q' ≠ q → s'.queue q' = s.queue q')
    (hlist : ∀ q', q' ≠ q → a'.list q' = a.list q')
    (hlinks : ∀ q', q' ≠ q → ∀ p ∈ a.list q',
      (s'.proc p).next = (s.proc p).next ∧ (s'.proc p).prev = (s.proc p).prev)
    (hdisj : ∀ q', q' ≠ q → ∀ p ∈ a'.list q, p ∉ a.list q') : Rep s' a' where
  task_eq := htask
  env_eq := henv
  wf q' := by
    by_cases hq : q' = q
    · rw [hq]; exact hwf
    · rw [hlist q' hq]; exact (h.wf q').congr (hqueue q' hq) (hlinks q' hq)
  disjoint q1 q2 p h1 h2 := by
    by_cases e1 : q1 = q <;> by_cases e2 : q2 = q
    · rw [e1, e2]
    · subst e1; exact absurd (hlist q2 e2 ▸ h2) (hdisj q2 e2 p h1)
    · subst e2; exact absurd (hlist q1 e1 ▸ h1) (hdisj q1 e1 p h2)
    · exact h.disjoint q1 q2 p (hlist q1 e1 ▸ h1) (hlist q2 e2 ▸ h2)
  unlocked q' := by
    by_cases hq : q' = q
    · rw [hq]; exact hlock
    · rw [hqueue q' hq]; exact h.unlocked q'
  checkUnlocked := hcheck

/-- Being linked once, a removed process is linked nowhere. -/
theorem Rep.unlinked_remove {s : Sched} {a : Abs} {p : PId} {q : QId} (h : Rep s a)
    (hm : p ∈ a.list q) : (a.remove p q).Unlinked p := by
  intro q' hm'
  rw [Abs.mem_remove (h.wf q).linked.nodup] at hm'
  exact hm'.2 ⟨h.disjoint q' q p hm'.1 hm, rfl⟩

/-- A change of tasks only. -/
theorem Rep.setProc {s : Sched} {a : Abs} (h : Rep s a) (p : PId) (f : Task → Task) :
    Rep (s.setProc p fun x => { x with toTask := f x.toTask }) (a.setTask p f) where
  task_eq p' := by
    rw [Sched.setProc_proc, Abs.setTask_task]
    split
    · rw [h.task_eq]
    · exact h.task_eq p'
  env_eq := h.env_eq
  wf q := (h.wf q).congr rfl fun p' _ => by
    rw [Sched.setProc_proc]
    split
    · next e => subst e; exact ⟨rfl, rfl⟩
    · exact ⟨rfl, rfl⟩
  disjoint := h.disjoint
  unlocked := h.unlocked
  checkUnlocked := h.checkUnlocked

/-- A process linked nowhere may also have its links changed. -/
theorem Rep.setProc_unlinked {s : Sched} {a : Abs} {p : PId} (h : Rep s a) (hp : a.Unlinked p)
    {f : Proc → Proc} {g : Task → Task} (hfg : ∀ x, (f x).toTask = g x.toTask) :
    Rep (s.setProc p f) (a.setTask p g) where
  task_eq p' := by
    rw [Sched.setProc_proc, Abs.setTask_task]
    split
    · rw [hfg, h.task_eq]
    · exact h.task_eq p'
  env_eq := h.env_eq
  wf q := (h.wf q).congr rfl fun p' hp' => by
    have hne : p' ≠ p := fun e => hp q (e ▸ hp')
    rw [Sched.setProc_proc, if_neg hne]
    exact ⟨rfl, rfl⟩
  disjoint := h.disjoint
  unlocked := h.unlocked
  checkUnlocked := h.checkUnlocked

/-- A change of the globals only. -/
theorem Rep.setEnv {s : Sched} {a : Abs} (h : Rep s a) (e : Env) :
    Rep { s with toEnv := e } { a with env := e } where
  task_eq := h.task_eq
  env_eq := rfl
  wf q := (h.wf q).congr rfl fun _ _ => ⟨rfl, rfl⟩
  disjoint := h.disjoint
  unlocked := h.unlocked
  checkUnlocked := h.checkUnlocked

end Xv6Rework
