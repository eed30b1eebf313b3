import Xv6Rework.Lib.Circular
import Xv6Rework.Lib.Machine
import Mathlib.Data.Nat.Basic

/-!
# Pipes

`kernel/ipc/pipe.c`: `pipewrite`, `piperead` and `pipeclose` on one pipe, by any number
of threads.  A call holds the pipe's lock except while it sleeps, so it runs in sections,
each from a point where it gets the lock to one where it gives it up.  A section is a
function here, and the steps of the machine are sections of calls in any order.

`killed` is set from outside at any time.  It is read at most once in a section.

Once both ends are closed, `pipeclose` gives the page of the pipe back; what happens to
the page after that is not about a pipe any more, and the machine stops.

The state keeps two records beside the pipe: the bytes that writes have stored so far,
and those that reads have delivered, in the order in which they returned.
-/

namespace Xv6Rework.Pipes

open Circular

/-- `PIPESIZE`. -/
def PIPESIZE : Nat := 512

/-- `struct pipe`. -/
structure Pipe where
  data : Nat → UInt8
  nread : UInt32
  nwrite : UInt32
  readopen : Bool
  writeopen : Bool

/-- What a call sleeps on: `&p->nread` or `&p->nwrite`. -/
inductive Chan where
  | nread
  | nwrite
deriving DecidableEq, Repr

/-- A call that has not returned.  For `pipewrite`, `i` is the loop's counter. -/
inductive Call where
  | pipewrite (addr : Nat → UInt8) (n : Int) (i : Nat)
  | piperead (n : Int)

/-- How a section ends. -/
inductive Outcome where
  | sleep (chan : Chan) (call : Call)
  | ret (r : Int)

/-- What a section does: the pipe it leaves, the channel it wakes up, the bytes it has
stored or delivered, and how it ends. -/
structure Effect where
  pipe : Pipe
  wakeup : Option Chan
  bytes : List UInt8
  outcome : Outcome

/-! ## Sections -/

/-- `p->data[p->nwrite++ % PIPESIZE] = c`. -/
def Pipe.store (p : Pipe) (c : UInt8) : Pipe :=
  { p with data := Function.update p.data (slot PIPESIZE p.nwrite) c, nwrite := p.nwrite + 1 }

/-- The loop of `pipewrite` from `i` on, where `k` rounds are left. -/
def writeLoop (killed : Bool) (addr : Nat → UInt8) (n : Int) :
    Nat → Nat → Pipe → List UInt8 → Effect
  | 0, _, p, l => ⟨p, some .nread, l, .ret n⟩
  | k + 1, i, p, l =>
    if p.nwrite = p.nread + UInt32.ofNat PIPESIZE then
      if p.readopen = false ∨ killed then
        ⟨p, none, l, .ret (-1)⟩
      else
        ⟨p, some .nread, l, .sleep .nwrite (.pipewrite addr n i)⟩
    else
      writeLoop killed addr n k (i + 1) (p.store (addr i)) (l ++ [addr i])

/-- The loop of `piperead` that copies, where `k` rounds are left. -/
def readLoop : Nat → Pipe → List UInt8 → Pipe × List UInt8
  | 0, p, l => (p, l)
  | k + 1, p, l =>
    if p.nread = p.nwrite then
      (p, l)
    else
      readLoop k { p with nread := p.nread + 1 } (l ++ [p.data (slot PIPESIZE p.nread)])

/-- A section of `pipewrite`. -/
def pipewrite (killed : Bool) (addr : Nat → UInt8) (n : Int) (i : Nat) (p : Pipe) : Effect :=
  writeLoop killed addr n (n - i).toNat i p []

/-- A section of `piperead`. -/
def piperead (killed : Bool) (n : Int) (p : Pipe) : Effect :=
  if p.nread = p.nwrite ∧ p.writeopen then
    if killed then
      ⟨p, none, [], .ret (-1)⟩
    else
      ⟨p, none, [], .sleep .nread (.piperead n)⟩
  else
    let (p, l) := readLoop n.toNat p []
    ⟨p, some .nwrite, l, .ret l.length⟩

/-- `pipeclose`, and the channel it wakes up. -/
def pipeclose (writable : Bool) (p : Pipe) : Pipe × Chan :=
  if writable then
    ({ p with writeopen := false }, .nread)
  else
    ({ p with readopen := false }, .nwrite)

/-! ## The machine -/

/-- A thread: the call it is in, and whether it sleeps there. -/
structure Thread where
  call : Option Call
  asleep : Option Chan
  killed : Bool

/-- A pipe with the threads that use it. -/
structure Sys (T : Type) where
  pipe : Pipe
  thread : T → Thread
  stored : List UInt8
  delivered : List UInt8

namespace Sys

variable {T : Type}

/-- The page has been given back. -/
def freed (s : Sys T) : Prop := s.pipe.readopen = false ∧ s.pipe.writeopen = false

instance (s : Sys T) : Decidable s.freed := inferInstanceAs (Decidable (_ ∧ _))

variable [DecidableEq T]

/-- Change a thread. -/
def setThread (s : Sys T) (t : T) (x : Thread) : Sys T :=
  { s with thread := Function.update s.thread t x }

/-- `wakeup`. -/
def wakeup (s : Sys T) (chan : Option Chan) : Sys T :=
  { s with
    thread := fun t =>
      if (s.thread t).asleep.isSome ∧ (s.thread t).asleep = chan then
        { s.thread t with asleep := none }
      else
        s.thread t }

/-- The end of a section. -/
def finish (s : Sys T) (t : T) (e : Effect) : Sys T :=
  match e.outcome with
  | .sleep chan call => s.setThread t { s.thread t with call := some call, asleep := some chan }
  | .ret _ => s.setThread t { s.thread t with call := none }

/-- A section of `pipewrite` in thread `t`. -/
def write (s : Sys T) (t : T) (addr : Nat → UInt8) (n : Int) (i : Nat) : Sys T :=
  let e := pipewrite (s.thread t).killed addr n i s.pipe
  { (s.wakeup e.wakeup).finish t e with pipe := e.pipe, stored := s.stored ++ e.bytes }

/-- A section of `piperead` in thread `t`. -/
def read (s : Sys T) (t : T) (n : Int) : Sys T :=
  let e := piperead (s.thread t).killed n s.pipe
  { (s.wakeup e.wakeup).finish t e with pipe := e.pipe, delivered := s.delivered ++ e.bytes }

/-- `pipeclose`. -/
def close (s : Sys T) (writable : Bool) : Sys T :=
  { s.wakeup (some (pipeclose writable s.pipe).2) with pipe := (pipeclose writable s.pipe).1 }

end Sys

/-- The steps: a thread calls `pipewrite` or `piperead`, or goes on with a section of the
call it is in; a process is killed; an end is closed. -/
inductive Act (T : Type) where
  | call (t : T) (c : Call)
  | resume (t : T)
  | kill (t : T)
  | close (writable : Bool)

/-- One step. -/
inductive Step {T : Type} [DecidableEq T] : Sys T → Act T → Sys T → Prop
  | pipewrite {s : Sys T} {t : T} {addr : Nat → UInt8} {n : Int} :
      ¬s.freed → (s.thread t).call = none →
      Step s (.call t (.pipewrite addr n 0)) (s.setThread t
      { s.thread t with call := some (.pipewrite addr n 0) })
  | piperead {s : Sys T} {t : T} {n : Int} :
      ¬s.freed → (s.thread t).call = none →
      Step s (.call t (.piperead n)) (s.setThread t { s.thread t with call := some (.piperead n) })
  | write {s : Sys T} {t : T} {addr : Nat → UInt8} {n : Int} {i : Nat} :
      ¬s.freed → (s.thread t).call = some (.pipewrite addr n i) → (s.thread t).asleep = none →
      Step s (.resume t) (s.write t addr n i)
  | read {s : Sys T} {t : T} {n : Int} :
      ¬s.freed → (s.thread t).call = some (.piperead n) → (s.thread t).asleep = none →
      Step s (.resume t) (s.read t n)
  | kill {s : Sys T} {t : T} :
      Step s (.kill t) (s.setThread t { s.thread t with killed := true, asleep := none })
  | close {s : Sys T} {writable : Bool} : ¬s.freed → Step s (.close writable) (s.close writable)

/-! ## Sections keep the order -/

section

variable {p : Pipe} {killed : Bool} {addr : Nat → UInt8} {n : Int} {k i : Nat} {l : List UInt8}

/-- The number of bytes in the pipe. -/
def Pipe.size (p : Pipe) : Nat := gap p.nread p.nwrite

/-- The bytes in the pipe, oldest first. -/
def Pipe.contents (p : Pipe) : List UInt8 := window PIPESIZE p.data p.nread p.size

theorem pipesize_dvd : PIPESIZE ∣ 2 ^ 32 := by decide

/-- The test of `pipewrite` for a full pipe. -/
theorem Pipe.full_iff : p.nwrite = p.nread + UInt32.ofNat PIPESIZE ↔ p.size = PIPESIZE :=
  eq_ahead_iff (by decide)

theorem Pipe.empty_iff : p.nread = p.nwrite ↔ p.size = 0 := eq_comm.trans gap_eq_zero.symm

theorem Pipe.size_store {c : UInt8} (h : p.size < PIPESIZE) : (p.store c).size = p.size + 1 := by
  have hlt : PIPESIZE < 2 ^ 32 := by decide
  have hsize : gap p.nread p.nwrite + 1 < 2 ^ 32 := by
    unfold Pipe.size at h
    omega
  exact gap_succ hsize

theorem Pipe.contents_store {c : UInt8} (h : p.size < PIPESIZE) :
    (p.store c).contents = p.contents ++ [c] := by
  have hslot : ahead p.nread p.size = p.nwrite := ahead_gap
  rw [contents, size_store h, store, contents, ← hslot]
  exact window_store pipesize_dvd h

theorem Pipe.size_take (h : p.size ≠ 0) :
    ({ p with nread := p.nread + 1 } : Pipe).size + 1 = p.size :=
  gap_succ_left fun e => h (gap_eq_zero.2 e)

theorem Pipe.contents_take (h : p.size ≠ 0) :
    p.contents = p.data (slot PIPESIZE p.nread) ::
      ({ p with nread := p.nread + 1 } : Pipe).contents := by
  rw [contents, ← size_take h, window_succ_left]
  rfl

/-- What the loop of `pipewrite` has stored is at the end of the pipe. -/
theorem writeLoop_contents (killed : Bool) (addr : Nat → UInt8) (n : Int) (k i : Nat)
    (l : List UInt8) (h : p.size ≤ PIPESIZE) :
    (writeLoop killed addr n k i p l).pipe.size ≤ PIPESIZE ∧ ∃ b,
      (writeLoop killed addr n k i p l).bytes = l ++ b ∧
      (writeLoop killed addr n k i p l).pipe.contents = p.contents ++ b := by
  induction k generalizing i p l with
  | zero => exact ⟨h, [], by simp [writeLoop]⟩
  | succ k ih =>
    rw [writeLoop]
    split
    · split
      · exact ⟨h, [], by simp⟩
      · exact ⟨h, [], by simp⟩
    · next hfull =>
      have hlt : p.size < PIPESIZE := lt_of_le_of_ne h fun e => hfull (Pipe.full_iff.2 e)
      obtain ⟨hsize, b, hbytes, hcontents⟩ := ih (p := p.store (addr i)) (i + 1) (l ++ [addr i])
        (by rw [Pipe.size_store hlt]; omega)
      refine ⟨hsize, addr i :: b, ?_, ?_⟩
      · rw [hbytes, List.append_assoc, List.singleton_append]
      · rw [hcontents, Pipe.contents_store hlt, List.append_assoc, List.singleton_append]

/-- What the loop of `piperead` has copied was at the front of the pipe. -/
theorem readLoop_contents : (readLoop k p l).1.size ≤ p.size ∧ ∃ b,
    (readLoop k p l).2 = l ++ b ∧ p.contents = b ++ (readLoop k p l).1.contents := by
  induction k generalizing p l with
  | zero => exact ⟨le_rfl, [], by simp [readLoop]⟩
  | succ k ih =>
    rw [readLoop]
    split
    · exact ⟨le_rfl, [], by simp⟩
    · next hne =>
      have hpos : p.size ≠ 0 := fun e => hne (Pipe.empty_iff.2 e)
      have htake := Pipe.size_take hpos
      obtain ⟨hsize, b, hbytes, hcontents⟩ := ih (p := { p with nread := p.nread + 1 })
        (l := l ++ [p.data (slot PIPESIZE p.nread)])
      refine ⟨by omega, p.data (slot PIPESIZE p.nread) :: b, ?_, ?_⟩
      · rw [hbytes, List.append_assoc, List.singleton_append]
      · rw [Pipe.contents_take hpos, hcontents, List.cons_append]

/-- A pipe that is not empty yields a byte to every read of a positive count. -/
theorem readLoop_ne_nil (hk : k ≠ 0) (hp : p.nread ≠ p.nwrite) : (readLoop k p []).2 ≠ [] := by
  obtain ⟨k, rfl⟩ := Nat.exists_eq_succ_of_ne_zero hk
  rw [readLoop, if_neg hp]
  obtain ⟨-, b, hbytes, -⟩ := readLoop_contents (k := k) (p := { p with nread := p.nread + 1 })
    (l := [] ++ [p.data (slot PIPESIZE p.nread)])
  rw [hbytes]
  simp

/-- When `piperead` returns 0 for a positive count. -/
theorem piperead_zero (hn : 0 < n) (h : (piperead killed n p).outcome = .ret 0) :
    p.nread = p.nwrite ∧ p.writeopen = false := by
  unfold piperead at h
  split at h
  · -- the calls that find the pipe empty and open sleep or fail
    split at h
    · simp at h
    · cases h
  · next hopen =>
    have hzero : ((readLoop n.toNat p []).2.length : Int) = 0 := Outcome.ret.inj h
    have hempty : p.nread = p.nwrite := by
      by_contra hne
      have hk : n.toNat ≠ 0 := by omega
      exact readLoop_ne_nil hk hne (List.eq_nil_of_length_eq_zero (Int.ofNat.inj hzero))
    exact ⟨hempty, by simpa [hempty] using hopen⟩

end

/-! ## Every run keeps the order -/

section

variable {T : Type} [DecidableEq T] {s s' : Sys T} {t : T}

/-- The pipe is empty or not at any place of its counters, and no thread is in a call. -/
structure Init (s : Sys T) : Prop where
  size_le : s.pipe.size ≤ PIPESIZE
  idle : ∀ t, (s.thread t).call = none ∧ (s.thread t).asleep = none
  stored : s.stored = s.pipe.contents
  delivered : s.delivered = []

/-- What has been stored is what has been delivered, followed by what is in the pipe. -/
structure Fifo (s : Sys T) : Prop where
  size_le : s.pipe.size ≤ PIPESIZE
  stored : s.stored = s.delivered ++ s.pipe.contents

omit [DecidableEq T] in
theorem Init.fifo (h : Init s) : Fifo s :=
  ⟨h.size_le, by rw [h.stored, h.delivered, List.nil_append]⟩

theorem finish_eq {e : Effect} : ∃ x, s.finish t e = s.setThread t x := by
  unfold Sys.finish
  split <;> exact ⟨_, rfl⟩

theorem Fifo.write {addr : Nat → UInt8} {n : Int} {i : Nat} (h : Fifo s) :
    Fifo (s.write t addr n i) := by
  obtain ⟨hsize, b, hbytes, hcontents⟩ := writeLoop_contents (s.thread t).killed addr n
    (n - i).toNat i [] h.size_le
  obtain ⟨x, hx⟩ := finish_eq (s := s.wakeup (pipewrite (s.thread t).killed addr n i s.pipe).wakeup)
    (t := t) (e := pipewrite (s.thread t).killed addr n i s.pipe)
  refine ⟨hsize, ?_⟩
  simp only [Sys.write, hx]
  simp only [Sys.setThread, Sys.wakeup, pipewrite, hbytes, hcontents, h.stored, List.nil_append,
    List.append_assoc]

/-- A section of `piperead` takes what it delivers from the front of the pipe. -/
theorem piperead_contents (p : Pipe) (killed : Bool) (n : Int) :
    (piperead killed n p).pipe.size ≤ p.size ∧
      p.contents = (piperead killed n p).bytes ++ (piperead killed n p).pipe.contents := by
  unfold piperead
  split
  · split <;> exact ⟨le_rfl, rfl⟩
  · obtain ⟨hsize, b, hbytes, hcontents⟩ := readLoop_contents (k := n.toNat) (p := p) (l := [])
    refine ⟨hsize, ?_⟩
    rw [hcontents]
    simp only [hbytes, List.nil_append]

theorem Fifo.read {n : Int} (h : Fifo s) : Fifo (s.read t n) := by
  obtain ⟨hsize, hcontents⟩ := piperead_contents s.pipe (s.thread t).killed n
  obtain ⟨x, hx⟩ := finish_eq (s := s.wakeup (piperead (s.thread t).killed n s.pipe).wakeup)
    (t := t) (e := piperead (s.thread t).killed n s.pipe)
  refine ⟨Nat.le_trans hsize h.size_le, ?_⟩
  simp only [Sys.read, hx]
  simp only [Sys.setThread, Sys.wakeup, h.stored, hcontents, List.append_assoc]

omit [DecidableEq T] in
theorem Fifo.close {writable : Bool} (h : Fifo s) : Fifo (s.close writable) := by
  cases writable <;> exact ⟨h.size_le, h.stored⟩

theorem Fifo.step {a : Act T} (h : Fifo s) (hs : Step s a s') : Fifo s' := by
  cases hs with
  | pipewrite _ _ => exact ⟨h.size_le, h.stored⟩
  | piperead _ _ => exact ⟨h.size_le, h.stored⟩
  | write _ _ _ => exact h.write
  | read _ _ _ => exact h.read
  | kill => exact ⟨h.size_le, h.stored⟩
  | close _ => exact h.close

theorem fifo_of_reach (h : Reach Init Step s) : Fifo s := by
  induction h with
  | init h => exact h.fifo
  | step _ hs ih => exact ih.step hs

/-- The counters stay within the pipe's size, what reads have delivered is a prefix of
what writes have stored, and a read of a positive count returns 0 at the end only. -/
theorem pipe_lossless (h : Reach Init Step s) :
    gap s.pipe.nread s.pipe.nwrite ≤ PIPESIZE ∧ s.delivered <+: s.stored ∧
      ∀ t n, (s.thread t).call = some (.piperead n) → 0 < n →
        (piperead (s.thread t).killed n s.pipe).outcome = .ret 0 →
        s.pipe.nread = s.pipe.nwrite ∧ s.pipe.writeopen = false := by
  have hfifo := fifo_of_reach h
  refine ⟨hfifo.size_le, ?_, fun t n _ hn hzero => piperead_zero hn hzero⟩
  exact ⟨s.pipe.contents, hfifo.stored.symm⟩

end

/-- A pipe whose counters are about to wrap around. -/
def late : Sys Bool where
  pipe := ⟨fun _ => 0, 0xfffffffe, 0xfffffffe, true, true⟩
  thread _ := ⟨none, none, false⟩
  stored := []
  delivered := []

/-- `late` after one thread has written three bytes and the other has called
`piperead`. -/
def wrapped : Sys Bool :=
  let s := (late.setThread true ⟨some (.pipewrite (fun i => .ofNat i) 3 0), none, false⟩).write true
    (fun i => .ofNat i) 3 0
  (s.setThread false ⟨some (.piperead 2), none, false⟩).read false 2

theorem wrapped_lossless : wrapped.pipe.nwrite = 1 ∧ wrapped.pipe.nread = 0 ∧
    wrapped.delivered = [0, 1] ∧ wrapped.delivered <+: wrapped.stored := by
  have hinit : Init late := ⟨by decide, fun _ => ⟨rfl, rfl⟩, by decide, rfl⟩
  have h1 : Reach Init Step (late.setThread true ⟨some (.pipewrite (fun i => .ofNat i) 3 0),
      none, false⟩) :=
    (Reach.init hinit).step (.pipewrite (t := true) (by simp [Sys.freed, late]) rfl)
  have h2 := h1.step (.write (t := true) (by simp [Sys.freed, late, Sys.setThread]) rfl rfl)
  have h3 := h2.step (.piperead (t := false) (n := 2) (by decide) rfl)
  have h4 : Reach Init Step wrapped := h3.step (.read (t := false) (n := 2) (by decide) rfl rfl)
  exact ⟨by decide, by decide, by decide, (pipe_lossless h4).2.1⟩

end Xv6Rework.Pipes
