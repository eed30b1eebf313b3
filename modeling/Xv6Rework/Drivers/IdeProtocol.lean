import Xv6Rework.Drivers.Ide
import Xv6Rework.Lib.DLinked
import Mathlib.Data.Fintype.Card

/-!
# The request protocol of the IDE driver

`Protocol` is what the driver is meant to keep: the head of each queue is the
request its controller works on, requests are done in the order they came in,
each by the interrupt of its own command, and no lock is left held.

It is kept exactly as long as an interrupt of disk 1 finds at most one request
queued, and one of disk 2 exactly one.  With two or more queued, both handlers
drop the request they have just started from the queue, and `ideintr` releases
its lock twice; with none queued `ideintr2` releases the lock of the other
disk.
-/

namespace Xv6Rework

namespace Ide

open Function
open Prog hiding update update_apply

variable {δ : Type} {n : Nat}

/-! ## The property -/

/-- The buffers met by following `qnext` from the head of a queue. -/
def queue (s : Ide δ n) (d : Disk) : List (Fin n) :=
  followLinks (fun b => (s.buf b).qnext) n (s.idequeue d)

/-- The buffer is marked done: `B_VALID` and not `B_DIRTY`. -/
def IdeBuf.Done (x : IdeBuf δ n) : Prop := (x.valid && !x.dirty) = true

/-- The request protocol. -/
structure Protocol (s : Machine δ n) : Prop where
  no_panic : s.fault = none
  unlocked : ∀ d, s.ide.idelock d = false
  idle : ∀ d, s.ide.queue d = [] → (s.ide.ctrl d).pending = []
  active : ∀ d b l, s.ide.queue d = b :: l → ∃ c, (s.ide.ctrl d).pending = [c] ∧ c.buf = b
  in_order : ∀ d, (s.ide.marked d).map Mark.buf ++ s.ide.queue d = s.ide.submitted d
  by_own_command : ∀ d, ∀ m ∈ s.ide.marked d, ∃ c, m.cmd = some c ∧ c.buf = m.buf ∧
    (c.write = false → m.data = m.block)
  queued_not_done : ∀ d, ∀ b ∈ s.ide.queue d, ¬IdeBuf.Done (s.ide.buf b)
  waiting_done : ∀ b, s.ide.waiting b = true → (∃ d, b ∈ s.ide.queue d) ∨ IdeBuf.Done (s.ide.buf b)

/-- An interrupt comes when at most one request is queued on disk 1, or exactly
one on disk 2. -/
def FewQueued (s : Machine δ n) : Act δ n → Prop
  | .intr .one => (s.ide.queue .one).length ≤ 1
  | .intr .two => (s.ide.queue .two).length = 1
  | _ => True

instance (s : Machine δ n) : ∀ act, Decidable (FewQueued s act)
  | .intr .one => inferInstanceAs (Decidable (_ ≤ _))
  | .intr .two => inferInstanceAs (Decidable (_ = _))
  | .submit _ => inferInstanceAs (Decidable True)
  | .ret _ => inferInstanceAs (Decidable True)

/-! ## The invariant -/

/-- The command `idestart` gives for a buffer. -/
def cmdOf (s : Ide δ n) (b : Fin n) : Cmd δ n :=
  ⟨b, (s.buf b).dirty, (s.buf b).blockno, (s.buf b).data⟩

/-- `s` is in order, with the requests `l d` queued on disk `d`. -/
structure Good (s : Ide δ n) (l : Disk → List (Fin n)) : Prop where
  linked : ∀ d, SLinked (fun b => (s.buf b).qnext) (l d)
  head_eq : ∀ d, s.idequeue d = (l d).head?
  disjoint : ∀ d d' b, b ∈ l d → b ∈ l d' → d = d'
  unlocked : ∀ d, s.idelock d = false
  active : ∀ d, (s.ctrl d).pending = ((l d).head?.map (cmdOf s)).toList
  in_order : ∀ d, (s.marked d).map Mark.buf ++ l d = s.submitted d
  queued : ∀ d, ∀ b ∈ l d, (s.buf b).dev = d ∧ (s.buf b).blockno < FSSIZE ∧
    s.waiting b = true ∧ ¬IdeBuf.Done (s.buf b)
  by_own_command : ∀ d, ∀ m ∈ s.marked d, ∃ c, m.cmd = some c ∧ c.buf = m.buf ∧
    (c.write = false → m.data = m.block)
  waiting_done : ∀ b, s.waiting b = true → (∃ d, b ∈ l d) ∨ IdeBuf.Done (s.buf b)

variable {s : Ide δ n} {l : Disk → List (Fin n)} {d : Disk} {b : Fin n}

theorem queue_eq {q : List (Fin n)} (h : SLinked (fun b => (s.buf b).qnext) q)
    (hh : s.idequeue d = q.head?) : s.queue d = q := by
  rw [queue, hh]
  exact h.followLinks_eq (by simpa using h.nodup.length_le_card)

theorem Good.queue_eq (h : Good s l) (d : Disk) : s.queue d = l d :=
  Ide.queue_eq (h.linked d) (h.head_eq d)

theorem Good.protocol (h : Good s l) : Protocol ⟨s, none⟩ where
  no_panic := rfl
  unlocked := h.unlocked
  idle d hq := by
    rw [h.queue_eq] at hq
    simp [h.active, hq]
  active d b q hq := by
    rw [h.queue_eq] at hq
    exact ⟨cmdOf s b, by simp [h.active, hq], rfl⟩
  in_order d := by rw [h.queue_eq]; exact h.in_order d
  by_own_command := h.by_own_command
  queued_not_done d b hb := by
    rw [h.queue_eq] at hb
    exact (h.queued d b hb).2.2.2
  waiting_done b hb := by
    simp only [h.queue_eq]
    exact h.waiting_done b hb

/-! ## A command completes -/

/-- `s` after the command of the head `b` of queue `d` has completed and the
handler has taken `b` off the queue and marked it. -/
def completeHead (s : Ide δ n) (d : Disk) (b : Fin n) : Ide δ n :=
  let k := Controller.complete (s.ctrl d) (cmdOf s b) []
  let data := if (s.buf b).dirty then (s.buf b).data else k.port
  { s with
    ctrl := update s.ctrl d k
    handling := some (cmdOf s b)
    idequeue := update s.idequeue d (s.buf b).qnext
    buf := update s.buf b
      { s.buf b with valid := true, dirty := false, data := data }
    marked := update s.marked d
      (s.marked d ++ [⟨b, some (cmdOf s b), data, k.disk (s.buf b).blockno⟩]) }

theorem complete_pending (k : Controller δ n) (c : Cmd δ n) (rest : List (Cmd δ n)) :
    (Controller.complete k c rest).pending = rest := by
  cases hw : c.write <;> simp [Controller.complete, hw]

/-- The state the handler runs in when the head's command has completed. -/
def completed (s : Ide δ n) (d : Disk) (b : Fin n) : Ide δ n :=
  { s.setCtrl d fun k => Controller.complete k (cmdOf s b) [] with handling := some (cmdOf s b) }

/-- Up to and including the marking, both handlers do the same. -/
theorem finish_ok (d : Disk) (b : Fin n) :
    finish d b (idewait d) ((s.completed d b).setLock d true) =
      (.ok (), (s.completeHead d b).setLock d true) := by
  cases hd : (s.buf b).dirty <;>
  simp [finish, idewait, completed, completeHead, complete_pending, setCtrl, setLock, setBuf,
    setQueue, hd]

theorem acquire_ok (h : s.idelock d = false) : acquire d s = (.ok (), s.setLock d true) := by
  simp [acquire, h]

theorem release_ok (h : s.idelock d = true) : release d s = (.ok (), s.setLock d false) := by
  simp [release, h]

theorem release_free (h : s.idelock d = false) :
    release d s = (.error (.panic "release"), s) := by
  simp [release, h]

/-- Taking and dropping a free lock changes nothing. -/
theorem relock_eq (h : s.idelock d = false) : (s.setLock d true).setLock d false = s := by
  have : update s.idelock d false = s.idelock := by rw [← h, update_eq_self]
  simp [setLock, this]

theorem release_relock (h : s.idelock d = false) :
    release d (s.setLock d true) = (.ok (), s) := by
  rw [release_ok (by simp [setLock]), relock_eq h]

theorem interrupt_pending {c : Cmd δ n} (h : (s.ctrl d).pending = [c]) (hc : c = cmdOf s b) :
    interrupt d s = handler d (s.completed d b) := by
  simp [interrupt, h, hc, completed]

section

variable (h : Good s l) {q : List (Fin n)} (hl : l d = b :: q)

include h hl

/-- The marked buffer is off its queue, and nothing else has moved. -/
theorem Good.completeHead_linked :
    SLinked (fun b' => ((s.completeHead d b).buf b').qnext) q ∧
      (s.completeHead d b).idequeue d = q.head? := by
  have hq := h.linked d
  rw [hl] at hq
  refine ⟨hq.tail.congr fun b' _ => ?_, ?_⟩
  · by_cases e : b' = b
    · subst e; simp [completeHead]
    · simp [completeHead, e]
  · simpa [completeHead] using hq.next_head

theorem Good.completeHead_buf (d' : Disk) (b' : Fin n) (hm : b' ∈ update l d q d') :
    b' ≠ b ∧ b' ∈ l d' := by
  have hnd := (h.linked d).nodup
  rw [hl] at hnd
  by_cases e : d' = d
  · subst e
    rw [update_self] at hm
    exact ⟨fun e => (List.nodup_cons.mp hnd).1 (e ▸ hm), by simp [hl, hm]⟩
  · rw [update_of_ne e] at hm
    refine ⟨?_, hm⟩
    rintro rfl
    exact e (h.disjoint d' d b' hm (by simp [hl]))

end

/-- With one request queued, completing it leaves the driver in order. -/
theorem Good.completeHead (h : Good s l) (hl : l d = [b]) :
    Good (s.completeHead d b) (update l d []) := by
  have hb := h.queued d b (by simp [hl])
  have hmem : ∀ {d' b'}, b' ∈ update l d [] d' → b' ≠ b ∧ b' ∈ l d' := fun hm =>
    h.completeHead_buf hl _ _ hm
  have hbuf : ∀ {b'}, b' ≠ b → (s.completeHead d b).buf b' = s.buf b' := fun e => by
    simp [Ide.completeHead, e]
  have hother : ∀ {d' b'}, d' ≠ d → b' ∈ l d' → b' ≠ b := fun e hb' =>
    (hmem (by rwa [update_of_ne e])).1
  refine ⟨fun d' => ?_, fun d' => ?_, fun d1 d2 b' h1 h2 => ?_, h.unlocked, fun d' => ?_,
    fun d' => ?_, fun d' b' hb' => ?_, fun d' m hm => ?_, fun b' hw => ?_⟩
  · by_cases e : d' = d
    · subst e
      rw [update_self]
      exact (h.completeHead_linked hl).1
    · rw [update_of_ne e]
      exact (h.linked d').congr fun b' hb' => by rw [hbuf (hother e hb')]
  · by_cases e : d' = d
    · subst e
      rw [update_self]
      exact (h.completeHead_linked hl).2
    · simpa [Ide.completeHead, e] using h.head_eq d'
  · exact h.disjoint d1 d2 b' (hmem h1).2 (hmem h2).2
  · by_cases e : d' = d
    · subst e
      simp [Ide.completeHead, complete_pending]
    · rw [update_of_ne e]
      refine (show _ = (s.ctrl d').pending by simp [Ide.completeHead, e]).trans ?_
      rw [h.active d']
      cases hq : l d' with
      | nil => rfl
      | cons b' q =>
        have hb' : b' ∈ l d' := by simp [hq]
        simp [cmdOf, hbuf (hother e hb')]
  · by_cases e : d' = d
    · subst e
      have := h.in_order d'
      rw [hl] at this
      simpa [Ide.completeHead] using this
    · simpa [Ide.completeHead, e] using h.in_order d'
  · obtain ⟨hne, hm⟩ := hmem hb'
    rw [hbuf hne]
    exact h.queued d' b' hm
  · by_cases e : d' = d
    · subst e
      simp only [Ide.completeHead, update_self, List.mem_append, List.mem_singleton] at hm
      rcases hm with hm | rfl
      · exact h.by_own_command d' m hm
      · refine ⟨cmdOf s b, rfl, rfl, fun hread => ?_⟩
        simp only [cmdOf] at hread
        simp [hread, Controller.complete, cmdOf]
    · simp [Ide.completeHead, e] at hm
      exact h.by_own_command d' m hm
  · by_cases e : b' = b
    · subst e
      exact .inr (by simp [IdeBuf.Done, Ide.completeHead])
    · rw [hbuf e]
      refine (h.waiting_done b' hw).imp_left fun ⟨d', hm⟩ => ⟨d', ?_⟩
      by_cases e' : d' = d
      · subst e'
        rw [hl, List.mem_singleton] at hm
        exact absurd hm e
      · rwa [update_of_ne e']

theorem Good.setHandling (h : Good s l) (c : Option (Cmd δ n)) :
    Good { s with handling := c } l :=
  ⟨h.linked, h.head_eq, h.disjoint, h.unlocked, h.active, h.in_order, h.queued,
    h.by_own_command, h.waiting_done⟩

/-! ## The handlers -/

theorem idestart_ok (h : (s.buf b).blockno < FSSIZE) :
    idestart d b s =
      (.ok (), s.setCtrl d fun k => { k with pending := k.pending ++ [cmdOf s b] }) := by
  simp [idestart, Nat.not_le.mpr h, cmdOf]

/-- The state in which the end of a handler has started the next request. -/
def startSecond (s : Ide δ n) (d : Disk) (b : Fin n) : Ide δ n :=
  (s.setCtrl d fun k => { k with pending := k.pending ++ [cmdOf s b] }).setQueue d (s.buf b).qnext

theorem startNext_some (hlock : s.idelock .one = false) (hq : s.idequeue .one = some b)
    (hdev : (s.buf b).dev = .one) (hblk : (s.buf b).blockno < FSSIZE) :
    startNext (s.setLock .one true) = (.error (.panic "release"), s.startSecond .one b) := by
  have hstart : idestart .one b (s.setLock .one true) = (.ok (), _) := idestart_ok hblk
  have hrel : release .one ((s.startSecond .one b).setLock .one true) =
      (.ok (), s.startSecond .one b) := release_relock hlock
  have h1 : (s.setLock .one true).idequeue .one = some b := hq
  have h2 : ((s.setLock .one true).buf b).dev = .one := hdev
  simp only [startNext, bind_gets, h1, h2, bind_of_ok hstart, bind_update]
  exact (bind_of_ok hrel).trans (release_free hlock)

theorem startNext2_some (hlock : s.idelock .two = false) (hq : s.idequeue .two = some b)
    (hdev : (s.buf b).dev = .two) (hblk : (s.buf b).blockno < FSSIZE) :
    startNext2 (s.setLock .two true) = (.ok (), s.startSecond .two b) := by
  have hstart : idestart .two b (s.setLock .two true) = (.ok (), _) := idestart_ok hblk
  have hrel : release .two ((s.startSecond .two b).setLock .two true) =
      (.ok (), s.startSecond .two b) := release_relock hlock
  have h1 : (s.setLock .two true).idequeue .two = some b := hq
  have h2 : ((s.setLock .two true).buf b).dev = .two := hdev
  simp only [startNext2, bind_gets, h1, h2, bind_of_ok hstart, bind_update]
  exact hrel

section

variable (h : Good s l) {q : List (Fin n)}

include h

theorem Good.pending_head (hl : l d = b :: q) : (s.ctrl d).pending = [cmdOf s b] := by
  simp [h.active, hl]

theorem Good.interrupt_one (hl : l .one = b :: q) :
    interrupt .one s = startNext ((s.completeHead .one b).setLock .one true) := by
  have hlock : (s.completed .one b).idelock .one = false := h.unlocked .one
  have hhead : s.idequeue .one = some b := by rw [h.head_eq, hl]; rfl
  have hdev : (s.buf b).dev = .one := (h.queued .one b (by simp [hl])).1
  rw [interrupt_pending (h.pending_head hl) rfl, handler, ideintr, bind_of_ok (acquire_ok hlock)]
  simp only [bind_gets]
  have h1 : ((s.completed .one b).setLock .one true).idequeue .one = some b := hhead
  have h2 : (((s.completed .one b).setLock .one true).buf b).dev = .one := hdev
  simp only [h1, bind_gets, h2, bind_of_ok (finish_ok .one b)]

theorem Good.interrupt_two (hl : l .two = b :: q) :
    interrupt .two s = startNext2 ((s.completeHead .two b).setLock .two true) := by
  have hlock : (s.completed .two b).idelock .two = false := h.unlocked .two
  have hhead : s.idequeue .two = some b := by rw [h.head_eq, hl]; rfl
  rw [interrupt_pending (h.pending_head hl) rfl, handler, ideintr2, bind_of_ok (acquire_ok hlock)]
  simp only [bind_gets]
  have h1 : ((s.completed .two b).setLock .two true).idequeue .two = some b := hhead
  simp only [h1, bind_of_ok (finish_ok .two b)]

/-- Nothing queued: the interrupt is spurious. -/
theorem Good.interrupt_nil (hl : l d = []) :
    interrupt d s = handler d { s with handling := none } := by
  have hpend : (s.ctrl d).pending = [] := by simp [h.active, hl]
  have hhead : s.idequeue d = none := by rw [h.head_eq, hl]; rfl
  simp [interrupt, hpend, hhead]

theorem Good.ideintr_nil (hl : l .one = []) :
    interrupt .one s = (.ok (), { s with handling := none }) := by
  have hhead : s.idequeue .one = none := by rw [h.head_eq, hl]; rfl
  have hlock : ({ s with handling := none } : Ide δ n).idelock .one = false := h.unlocked .one
  have h1 : (({ s with handling := none } : Ide δ n).setLock .one true).idequeue .one = none :=
    hhead
  rw [h.interrupt_nil hl, handler, ideintr, bind_of_ok (acquire_ok hlock)]
  simp only [bind_gets, h1]
  exact release_relock hlock

theorem Good.ideintr2_nil (hl : l .two = []) :
    ∃ t, interrupt .two s = (.error (.panic "release"), t) := by
  have hhead : s.idequeue .two = none := by rw [h.head_eq, hl]; rfl
  have hlock : ({ s with handling := none } : Ide δ n).idelock .two = false := h.unlocked .two
  have h1 : (({ s with handling := none } : Ide δ n).setLock .two true).idequeue .two = none :=
    hhead
  have h2 : (({ s with handling := none } : Ide δ n).setLock .two true).idelock .one = false := by
    simpa [setLock] using h.unlocked .one
  refine ⟨({ s with handling := none } : Ide δ n).setLock .two true, ?_⟩
  rw [h.interrupt_nil hl, handler, ideintr2, bind_of_ok (acquire_ok hlock)]
  simp only [bind_gets, h1]
  exact release_free h2

theorem Good.ideintr_single (hl : l .one = [b]) :
    interrupt .one s = (.ok (), s.completeHead .one b) := by
  have hhead := (h.completeHead_linked hl).2
  rw [h.interrupt_one hl, startNext, bind_gets]
  have h1 : ((s.completeHead .one b).setLock .one true).idequeue .one = none := hhead
  have hlock : (s.completeHead .one b).idelock .one = false := h.unlocked .one
  simp only [h1]
  exact release_relock hlock

theorem Good.ideintr2_single (hl : l .two = [b]) :
    interrupt .two s = (.ok (), s.completeHead .two b) := by
  have hhead := (h.completeHead_linked hl).2
  rw [h.interrupt_two hl, startNext2, bind_gets]
  have h1 : ((s.completeHead .two b).setLock .two true).idequeue .two = none := hhead
  have hlock : (s.completeHead .two b).idelock .two = false := h.unlocked .two
  simp only [h1]
  exact release_relock hlock

/-- With a second request queued, `ideintr` releases its lock twice. -/
theorem Good.ideintr_many {b2 : Fin n} (hl : l .one = b :: b2 :: q) :
    ∃ t, interrupt .one s = (.error (.panic "release"), t) := by
  obtain ⟨hne, hm⟩ := h.completeHead_buf hl .one b2 (by simp)
  have hb2 := h.queued .one b2 hm
  have hbuf : (s.completeHead .one b).buf b2 = s.buf b2 := by simp [Ide.completeHead, hne]
  rw [h.interrupt_one hl]
  exact ⟨_, startNext_some (h.unlocked .one) (h.completeHead_linked hl).2
    (by rw [hbuf]; exact hb2.1) (by rw [hbuf]; exact hb2.2.1)⟩

/-- With a second request queued, `ideintr2` starts it and drops it. -/
theorem Good.ideintr2_many {b2 : Fin n} (hl : l .two = b :: b2 :: q) :
    interrupt .two s = (.ok (), (s.completeHead .two b).startSecond .two b2) := by
  obtain ⟨hne, hm⟩ := h.completeHead_buf hl .two b2 (by simp)
  have hb2 := h.queued .two b2 hm
  have hbuf : (s.completeHead .two b).buf b2 = s.buf b2 := by simp [Ide.completeHead, hne]
  rw [h.interrupt_two hl]
  exact startNext2_some (h.unlocked .two) (h.completeHead_linked hl).2 (by rw [hbuf]; exact hb2.1)
    (by rw [hbuf]; exact hb2.2.1)

end

/-! ## Steps -/

/-- A step taken from a state in order: it meets the condition and leaves the
driver in order, or it does neither. -/
def Outcome (s : Ide δ n) (act : Act δ n) (s' : Machine δ n) : Prop :=
  (FewQueued ⟨s, none⟩ act ∧ s'.fault = none ∧ ∃ l', Good s'.ide l') ∨
    (¬FewQueued ⟨s, none⟩ act ∧ ¬Protocol s')

variable {act : Act δ n} {s' : Machine δ n} {t : Ide δ n}

theorem Step.of_ok (hs : Step ⟨s, none⟩ act s') (he : exec act s = (.ok (), t)) :
    s' = ⟨t, none⟩ := by
  have := hs.2
  rw [he] at this
  exact this

theorem Step.of_panic {msg : String} (hs : Step ⟨s, none⟩ act s')
    (he : exec act s = (.error (.panic msg), t)) : s' = ⟨t, some msg⟩ := by
  have := hs.2
  rw [he] at this
  exact this

/-- A request that is started and dropped from the queue is not its head. -/
theorem Good.not_protocol_startSecond (h : Good s l) {b2 : Fin n} {q : List (Fin n)}
    (hl : l d = b :: b2 :: q) : ¬Protocol ⟨(s.completeHead d b).startSecond d b2, none⟩ := by
  intro hp
  have hlinked := (h.completeHead_linked hl).1
  have hqueue : ((s.completeHead d b).startSecond d b2).queue d = q :=
    Ide.queue_eq hlinked.tail (by simpa [startSecond, setQueue] using hlinked.next_head)
  have hpend : (((s.completeHead d b).startSecond d b2).ctrl d).pending =
      [cmdOf (s.completeHead d b) b2] := by
    simp [startSecond, setCtrl, setQueue, Ide.completeHead, complete_pending]
  cases q with
  | nil => simpa [hpend] using hp.idle d hqueue
  | cons b3 q =>
    obtain ⟨c, hc, hb⟩ := hp.active d b3 q hqueue
    rw [hpend] at hc
    obtain rfl : b2 = b3 := by
      rw [← hb, ← (List.cons.inj hc).1]
      rfl
    exact (List.nodup_cons.mp hlinked.nodup).1 (by simp)

theorem Good.intr (h : Good s l) (hs : Step ⟨s, none⟩ (.intr d) s') : Outcome s (.intr d) s' := by
  have hq : s.queue d = l d := h.queue_eq d
  cases d with
  | one =>
    have hfew : FewQueued ⟨s, none⟩ (.intr .one) ↔ (l .one).length ≤ 1 := by
      rw [← hq]; exact Iff.rfl
    match hl : l .one with
    | [] =>
      obtain rfl := Step.of_ok hs (h.ideintr_nil hl)
      exact .inl ⟨by simp [hfew, hl], rfl, l, h.setHandling none⟩
    | [b] =>
      obtain rfl := Step.of_ok hs (h.ideintr_single hl)
      exact .inl ⟨by simp [hfew, hl], rfl, _, h.completeHead hl⟩
    | b :: b2 :: q =>
      obtain ⟨t, ht⟩ := h.ideintr_many hl
      obtain rfl := Step.of_panic hs ht
      exact .inr ⟨by simp [hfew, hl], fun hp => by simpa using hp.no_panic⟩
  | two =>
    have hfew : FewQueued ⟨s, none⟩ (.intr .two) ↔ (l .two).length = 1 := by
      rw [← hq]; exact Iff.rfl
    match hl : l .two with
    | [] =>
      obtain ⟨t, ht⟩ := h.ideintr2_nil hl
      obtain rfl := Step.of_panic hs ht
      exact .inr ⟨by simp [hfew, hl], fun hp => by simpa using hp.no_panic⟩
    | [b] =>
      obtain rfl := Step.of_ok hs (h.ideintr2_single hl)
      exact .inl ⟨by simp [hfew, hl], rfl, _, h.completeHead hl⟩
    | b :: b2 :: q =>
      obtain rfl := Step.of_ok hs (h.ideintr2_many hl)
      exact .inr ⟨by simp [hfew, hl], h.not_protocol_startSecond hl⟩

/-! ## Submitting -/

theorem findLast_ok (l1 l2 : List (Fin n)) (b0 : Fin n)
    (h : SLinked (fun b => (s.buf b).qnext) (l1 ++ b0 :: l2)) (fuel : Nat)
    (hf : l2.length < fuel) :
    findLast fuel b0 s = (.ok ((b0 :: l2).getLast (by simp)), s) := by
  induction l2 generalizing l1 b0 fuel with
  | nil =>
    obtain ⟨fuel, rfl⟩ : ∃ k, fuel = k + 1 := ⟨fuel - 1, by simp at hf; omega⟩
    have hnext : (s.buf b0).qnext = none := h.next_eq l1 b0 [] rfl
    simp [findLast, hnext]
  | cons b1 l2 ih =>
    obtain ⟨fuel, rfl⟩ : ∃ k, fuel = k + 1 := ⟨fuel - 1, by simp at hf; omega⟩
    have hnext : (s.buf b0).qnext = some b1 := h.next_eq l1 b0 (b1 :: l2) rfl
    have := ih (l1 ++ [b0]) b1 (by simpa using h) fuel (by simpa using hf)
    simp [findLast, hnext, this]

/-- A buffer as its caller hands it over. -/
def Request.toBuf (r : Request δ n) (qnext : Option (Fin n)) : IdeBuf δ n :=
  ⟨r.valid, r.dirty, r.dev, r.blockno, qnext, r.data⟩

/-- The state in which `iderw` is called. -/
def handOver (s : Ide δ n) (r : Request δ n) : Ide δ n :=
  { s with
    buf := update s.buf r.buf (r.toBuf (s.buf r.buf).qnext)
    waiting := update s.waiting r.buf true
    submitted := update s.submitted r.dev (s.submitted r.dev ++ [r.buf]) }

theorem exec_submit {r : Request δ n} (hw : s.waiting r.buf = false) (hr : r.Proper) :
    exec (.submit r) s = iderw r.buf r.dev (s.handOver r) := by
  simp [exec, hw, hr, handOver, setBuf, Request.toBuf]

/-- The first request of a queue is started at once. -/
def acceptFirst (s : Ide δ n) (r : Request δ n) : Ide δ n :=
  { s with
    buf := update s.buf r.buf (r.toBuf none)
    waiting := update s.waiting r.buf true
    submitted := update s.submitted r.dev (s.submitted r.dev ++ [r.buf])
    idequeue := update s.idequeue r.dev (some r.buf)
    ctrl := update s.ctrl r.dev { s.ctrl r.dev with
      pending := (s.ctrl r.dev).pending ++ [⟨r.buf, r.dirty, r.blockno, r.data⟩] } }

/-- A later request is linked behind the last one. -/
def acceptBehind (s : Ide δ n) (r : Request δ n) (last : Fin n) : Ide δ n :=
  { s with
    buf := update (update s.buf r.buf (r.toBuf none)) last
      { s.buf last with qnext := some r.buf }
    waiting := update s.waiting r.buf true
    submitted := update s.submitted r.dev (s.submitted r.dev ++ [r.buf]) }

section

variable (h : Good s l) {r : Request δ n} (hw : s.waiting r.buf = false) (hr : r.Proper)

include h hw hr

theorem Good.submit_nil (hl : l r.dev = []) : exec (.submit r) s = (.ok (), s.acceptFirst r) := by
  have hhead : s.idequeue r.dev = none := by rw [h.head_eq, hl]; rfl
  have hlock := h.unlocked r.dev
  have hflags : ¬(r.valid = true ∧ r.dirty = false) := by simpa using hr.1
  have hunlock : update s.idelock r.dev false = s.idelock := by
    rw [← hlock, update_eq_self]
  rw [exec_submit hw hr]
  simp [iderw, handOver, Request.toBuf, hflags, acquire, hlock, append, setBuf, setLock, hhead,
    setQueue, idestart, Nat.not_le.mpr hr.2, setCtrl, release, acceptFirst, hunlock]

theorem Good.submit_cons {b0 : Fin n} {q : List (Fin n)} (hl : l r.dev = b0 :: q) :
    exec (.submit r) s = (.ok (), s.acceptBehind r ((b0 :: q).getLast (by simp))) := by
  have hhead : s.idequeue r.dev = some b0 := by rw [h.head_eq, hl]; rfl
  have hlock := h.unlocked r.dev
  have hflags : ¬(r.valid = true ∧ r.dirty = false) := by simpa using hr.1
  have hunlock : update s.idelock r.dev false = s.idelock := by
    rw [← hlock, update_eq_self]
  have hnot : ∀ b ∈ b0 :: q, b ≠ r.buf := by
    rintro b hb rfl
    have := (h.queued r.dev r.buf (by simpa [hl] using hb)).2.2.1
    rw [hw] at this
    cases this
  have hlinked := h.linked r.dev
  rw [hl] at hlinked
  have hlen : q.length < n := Nat.lt_of_succ_le (by simpa using hlinked.nodup.length_le_card)
  have hlast : ∀ t : Ide δ n, (∀ b, b ≠ r.buf → (t.buf b).qnext = (s.buf b).qnext) →
      findLast n b0 t = (.ok ((b0 :: q).getLast (by simp)), t) := fun t ht =>
    findLast_ok [] q b0 (hlinked.congr fun b hb => ht b (hnot b hb)) n hlen
  have hne := hnot _ (List.getLast_mem (by simp : b0 :: q ≠ []))
  have happend : append r.buf r.dev ((s.handOver r).setLock r.dev true) =
      (.ok (), (s.acceptBehind r ((b0 :: q).getLast (by simp))).setLock r.dev true) := by
    have h1 : (((s.handOver r).setLock r.dev true).setBuf r.buf fun x =>
        { x with qnext := none }).idequeue r.dev = some b0 := hhead
    rw [append, bind_update, bind_gets]
    simp only [h1]
    rw [bind_of_ok (hlast _ fun b hb => by simp [setBuf, setLock, handOver, hb])]
    simp [setBuf, setLock, handOver, acceptBehind, Request.toBuf, hne]
  have hlock' : (s.handOver r).idelock r.dev = false := hlock
  have h2 : ((s.acceptBehind r ((b0 :: q).getLast (by simp))).setLock r.dev true).idequeue r.dev =
      some b0 := hhead
  have hb0 : b0 ≠ r.buf := hnot b0 (by simp)
  have h3 : ((s.handOver r).buf r.buf) = r.toBuf (s.buf r.buf).qnext := by simp [handOver]
  rw [exec_submit hw hr, iderw, bind_gets, h3]
  simp only [Request.toBuf, hr.1, Bool.false_eq_true, if_false, bind_of_ok (acquire_ok hlock'),
    bind_of_ok happend, bind_gets, h2, Option.some.injEq, hb0]
  exact release_relock (h.unlocked r.dev)

/-- A submission leaves the driver in order, with the request at the end of its
queue. -/
theorem Good.accept {t : Ide δ n} (hself : t.buf r.buf = r.toBuf none)
    (hsame : ∀ b, b ≠ r.buf → ∃ q, t.buf b = { s.buf b with qnext := q })
    (hfar : ∀ b, b ≠ r.buf → b ∉ l r.dev → t.buf b = s.buf b)
    (hlink : SLinked (fun b => (t.buf b).qnext) (l r.dev ++ [r.buf]))
    (hhead : ∀ d, t.idequeue d = (update l r.dev (l r.dev ++ [r.buf]) d).head?)
    (hlock : t.idelock = s.idelock) (hmarked : t.marked = s.marked)
    (hwait : t.waiting = update s.waiting r.buf true)
    (hsub : t.submitted = update s.submitted r.dev (s.submitted r.dev ++ [r.buf]))
    (hpend : ∀ d, (t.ctrl d).pending = if d = r.dev ∧ l d = [] then
      [⟨r.buf, r.dirty, r.blockno, r.data⟩] else (s.ctrl d).pending) :
    Good t (update l r.dev (l r.dev ++ [r.buf])) := by
  have hnew : ∀ d, r.buf ∉ l d := by
    intro d hm
    have := (h.queued d r.buf hm).2.2.1
    rw [hw] at this
    cases this
  have hmem : ∀ {d b}, b ∈ update l r.dev (l r.dev ++ [r.buf]) d ↔
      b ∈ l d ∨ (d = r.dev ∧ b = r.buf) := by
    intro d b
    by_cases e : d = r.dev
    · subst e; simp
    · simp [e]
  have hcmd : ∀ {d b}, b ∈ l d → cmdOf t b = cmdOf s b := by
    intro d b hb
    obtain ⟨q, hq⟩ := hsame b fun e => hnew d (e ▸ hb)
    simp [cmdOf, hq]
  have hdone : ∀ {b}, b ≠ r.buf → (IdeBuf.Done (t.buf b) ↔ IdeBuf.Done (s.buf b)) := by
    intro b hb
    obtain ⟨q, hq⟩ := hsame b hb
    simp [IdeBuf.Done, hq]
  refine ⟨fun d => ?_, hhead, fun d d' b hb hb' => ?_, by rw [hlock]; exact h.unlocked, fun d => ?_,
    fun d => ?_, fun d b hb => ?_, by rw [hmarked]; exact h.by_own_command, fun b hb => ?_⟩
  · by_cases e : d = r.dev
    · subst e; rw [update_self]; exact hlink
    · rw [update_of_ne e]
      refine (h.linked d).congr fun b hb => ?_
      rw [hfar b (fun e' => hnew d (e' ▸ hb)) fun hb' => e (h.disjoint d r.dev b hb hb')]
  · rcases hmem.mp hb with hb | ⟨rfl, rfl⟩ <;> rcases hmem.mp hb' with hb' | ⟨rfl, e⟩
    · exact h.disjoint d d' b hb hb'
    · exact absurd (e ▸ hb) (hnew d)
    · exact absurd hb' (hnew d')
    · rfl
  · rw [hpend]
    by_cases e : d = r.dev
    · subst e
      rw [update_self]
      cases hq : l r.dev with
      | nil => simp [cmdOf, hself, Request.toBuf]
      | cons b q =>
        have hb : b ∈ l r.dev := by simp [hq]
        simp [h.active, hq, hcmd hb]
    · rw [update_of_ne e, if_neg fun hc => e hc.1, h.active]
      cases hq : l d with
      | nil => rfl
      | cons b q =>
        have hb : b ∈ l d := by simp [hq]
        simp [hcmd hb]
  · rw [hmarked, hsub]
    by_cases e : d = r.dev
    · subst e
      simp [← h.in_order]
    · simpa [e] using h.in_order d
  · rcases hmem.mp hb with hb | ⟨rfl, rfl⟩
    · have hne : b ≠ r.buf := fun e => hnew d (e ▸ hb)
      obtain ⟨q, hq⟩ := hsame b hne
      have := h.queued d b hb
      rw [hdone hne, hwait, update_of_ne hne, hq]
      exact this
    · rw [hself, hwait]
      exact ⟨rfl, hr.2, by simp, by simpa [IdeBuf.Done, Request.toBuf] using hr.1⟩
  · by_cases e : b = r.buf
    · exact .inl ⟨r.dev, hmem.mpr (.inr ⟨rfl, e⟩)⟩
    · rw [hwait, update_of_ne e] at hb
      rw [hdone e]
      exact (h.waiting_done b hb).imp_left fun ⟨d, hd⟩ => ⟨d, hmem.mpr (.inl hd)⟩

theorem Good.acceptFirst (hl : l r.dev = []) :
    Good (s.acceptFirst r) (update l r.dev (l r.dev ++ [r.buf])) := by
  refine h.accept hw hr (by simp [Ide.acceptFirst])
    (fun b hb => ⟨(s.buf b).qnext, by simp [Ide.acceptFirst, hb]⟩)
    (fun b hb _ => by simp [Ide.acceptFirst, hb]) ?_ (fun d => ?_) rfl rfl rfl rfl (fun d => ?_)
  · rw [hl]
    refine ⟨List.nodup_singleton _, fun l1 b l2 e => ?_⟩
    obtain ⟨rfl, rfl, rfl⟩ : l1 = [] ∧ b = r.buf ∧ l2 = [] := by
      cases l1 <;> simp_all
    simp [Ide.acceptFirst, Request.toBuf]
  · by_cases e : d = r.dev
    · subst e; simp [Ide.acceptFirst, hl]
    · simpa [Ide.acceptFirst, e] using h.head_eq d
  · by_cases e : d = r.dev
    · subst e; simp [Ide.acceptFirst, hl, h.active]
    · simp [Ide.acceptFirst, e]

theorem Good.acceptBehind {b0 : Fin n} {q : List (Fin n)} (hl : l r.dev = b0 :: q) :
    Good (s.acceptBehind r ((b0 :: q).getLast (by simp)))
      (update l r.dev (l r.dev ++ [r.buf])) := by
  have hnew : r.buf ∉ l r.dev := by
    intro hm
    have := (h.queued r.dev r.buf hm).2.2.1
    rw [hw] at this
    cases this
  have hlast : (b0 :: q).getLast (by simp) ∈ l r.dev := by rw [hl]; exact List.getLast_mem _
  set last := (b0 :: q).getLast (by simp) with hlast_eq
  have hne : last ≠ r.buf := fun e => hnew (e ▸ hlast)
  have hbuf : ∀ b, (s.acceptBehind r last).buf b = if b = last then
      { s.buf b with qnext := some r.buf } else if b = r.buf then r.toBuf none else s.buf b := by
    intro b
    by_cases e : b = last
    · subst e; simp [Ide.acceptBehind]
    · simp [Ide.acceptBehind, e, update_apply]
  refine h.accept hw hr (by rw [hbuf, if_neg (Ne.symm hne), if_pos rfl]) (fun b hb => ?_)
    (fun b hb hb' => ?_) ?_ (fun d => ?_) rfl rfl rfl rfl (fun d => ?_)
  · rw [hbuf]
    split
    · exact ⟨_, rfl⟩
    · exact ⟨(s.buf b).qnext, rfl⟩
  · have hne' : b ≠ last := by
      rintro rfl
      exact hb' hlast
    rw [hbuf, if_neg hne', if_neg hb]
  · have hlink : SLinked (fun b => (s.buf b).qnext) (l r.dev ++ []) := by simpa using h.linked r.dev
    refine hlink.splice_in (by simpa using hnew) ?_ (fun b hb => ?_) (fun b hb hb' => ?_)
    · rw [hbuf, if_neg (Ne.symm hne), if_pos rfl]; rfl
    · rw [hl, List.getLast?_eq_getLast_of_ne_nil (by simp), Option.some.injEq] at hb
      rw [hbuf, if_pos hb.symm]
    · rw [hl, List.getLast?_eq_getLast_of_ne_nil (by simp), ne_eq, Option.some.injEq] at hb'
      have hb : b ∈ l r.dev := by simpa using hb
      have hne' : b ≠ r.buf := by
        rintro rfl
        exact hnew hb
      rw [hbuf, if_neg (Ne.symm hb'), if_neg hne']
  · by_cases e : d = r.dev
    · subst e; simp [Ide.acceptBehind, h.head_eq, hl]
    · simpa [Ide.acceptBehind, e] using h.head_eq d
  · rw [if_neg]
    · rfl
    · rintro ⟨rfl, hnil⟩
      rw [hl] at hnil
      cases hnil

end

theorem Good.submit (h : Good s l) {r : Request δ n} (hs : Step ⟨s, none⟩ (.submit r) s') :
    Outcome s (.submit r) s' := by
  by_cases hen : s.waiting r.buf = false ∧ r.Proper
  · obtain ⟨hw, hr⟩ := hen
    cases hl : l r.dev with
    | nil =>
      obtain rfl := Step.of_ok hs (h.submit_nil hw hr hl)
      exact .inl ⟨trivial, rfl, _, h.acceptFirst hw hr hl⟩
    | cons b0 q =>
      obtain rfl := Step.of_ok hs (h.submit_cons hw hr hl)
      exact .inl ⟨trivial, rfl, _, h.acceptBehind hw hr hl⟩
  · have hhang : exec (.submit r) s = (.error .hang, s) := by
      cases hw : s.waiting r.buf <;> simp_all [exec]
    have := hs.2
    rw [hhang] at this
    exact this.elim

theorem iderwReturn_ok (hlock : s.idelock d = false) :
    iderwReturn b d s =
      (.ok (), if (s.buf b).valid && !(s.buf b).dirty then
        { s with waiting := update s.waiting b false } else s) := by
  have hlock' : ({ s with waiting := update s.waiting b false } : Ide δ n).idelock d =
    false := hlock
  rw [iderwReturn, bind_of_ok (acquire_ok hlock), bind_gets]
  by_cases hf : ((s.buf b).valid && !(s.buf b).dirty) = true
  · have h1 : (((s.setLock d true).buf b).valid && !((s.setLock d true).buf b).dirty) = true := hf
    rw [if_pos h1, if_pos hf]
    exact release_relock hlock'
  · have h1 : ¬(((s.setLock d true).buf b).valid && !((s.setLock d true).buf b).dirty) = true := hf
    rw [if_neg h1, if_neg hf]
    exact release_relock hlock

/-- The return of a submission changes no queue. -/
theorem Good.ret (h : Good s l) (hs : Step ⟨s, none⟩ (.ret b) s') : Outcome s (.ret b) s' := by
  cases hw : s.waiting b with
  | false =>
    have hhang : exec (.ret b) s = (.error .hang, s) := by simp [exec, hw]
    have := hs.2
    rw [hhang] at this
    exact this.elim
  | true =>
    have hrun : exec (.ret b) s = iderwReturn b (s.buf b).dev s := by simp [exec, hw]
    rw [iderwReturn_ok (h.unlocked _)] at hrun
    obtain rfl := Step.of_ok hs hrun
    refine .inl ⟨trivial, rfl, l, ?_⟩
    by_cases hdone : ((s.buf b).valid && !(s.buf b).dirty) = true
    · rw [if_pos hdone]
      refine ⟨h.linked, h.head_eq, h.disjoint, h.unlocked, h.active, h.in_order, fun d b' hb' => ?_,
        h.by_own_command, fun b' hb' => ?_⟩
      · obtain ⟨hdev, hblk, hwait, hnot⟩ := h.queued d b' hb'
        have hne : b' ≠ b := by
          rintro rfl
          exact hnot hdone
        exact ⟨hdev, hblk, by simpa [hne] using hwait, hnot⟩
      · by_cases e : b' = b
        · simp [e] at hb'
        · exact h.waiting_done b' (by simpa [e] using hb')
    · rw [if_neg hdone]
      exact h

/-! ## Whole runs -/

theorem Good.step (h : Good s l) (hs : Step ⟨s, none⟩ act s') : Outcome s act s' := by
  cases act with
  | submit r => exact h.submit hs
  | intr d => exact h.intr hs
  | ret b => exact h.ret hs

theorem Idle.good {m : Machine δ n} (h : Idle m) : Good m.ide fun _ => [] := by
  obtain ⟨-, hwait, hd⟩ := h
  refine ⟨fun _ => .nil, fun d => (hd d).1, fun d d' b hb => by simp at hb, fun d => (hd d).2.1,
    fun d => (hd d).2.2.1, fun d => ?_, fun d b hb => by simp at hb, fun d m hm => ?_,
    fun b hb => ?_⟩
  · rw [(hd d).2.2.2.1, (hd d).2.2.2.2]; rfl
  · rw [(hd d).2.2.2.2] at hm; cases hm
  · rw [hwait] at hb; cases hb

/-- From a driver at rest, a run keeps the protocol in every state exactly if all
its interrupts come with few requests queued. -/
theorem protocol_always_iff {m : Machine δ n} {l : List (Act δ n × Machine δ n)} (h0 : Idle m)
    (h : Trace Step m l) : Trace.Always Protocol m l ↔ Trace.Meets FewQueued m l := by
  have heta : ∀ {m : Machine δ n}, m.fault = none → m = ⟨m.ide, none⟩ := by
    rintro ⟨ide, fault⟩ rfl
    rfl
  have hstep : ∀ (m : Machine δ n) act m', (m.fault = none ∧ ∃ l, Good m.ide l) → Step m act m' →
      Outcome m.ide act m' := by
    rintro m act m' ⟨hf, l, hl⟩ hs
    rw [heta hf] at hs
    exact hl.step hs
  refine h.always_iff_meets (fun m => m.fault = none ∧ ∃ l, Good m.ide l) ?_ ?_
    ⟨h0.1, _, h0.good⟩ ?_
  · rintro m act m' hm - hfew hs
    rcases hstep m act m' hm hs with ⟨-, h'⟩ | ⟨hn, -⟩
    · exact h'
    · rw [heta hm.1] at hfew
      exact absurd hfew hn
  · rintro m act m' hm - hs
    have hm' := heta hm.1
    rcases hstep m act m' hm hs with ⟨hfew, hf, l', hl'⟩ | ⟨hfew, hp⟩
    · rw [hm', heta hf]
      exact iff_of_true hl'.protocol hfew
    · rw [hm']
      exact iff_of_false hp hfew
  · rw [heta h0.1]
    exact h0.good.protocol

/-- The state after a step. -/
def after (m : Machine δ n) (act : Act δ n) : Machine δ n :=
  ⟨(exec act m.ide).2, match (exec act m.ide).1 with
    | .error (.panic msg) => some msg
    | _ => none⟩

theorem step_after {m : Machine δ n} {act : Act δ n} (hf : m.fault = none)
    (hh : (exec act m.ide).1 ≠ .error .hang) : Step m act (after m act) := by
  refine ⟨hf, ?_⟩
  rcases he : exec act m.ide with ⟨_ | _, t⟩
  · next e =>
    cases e with
    | panic msg => simp [after, he]
    | hang => simp [he] at hh
  · simp [after, he]

/-- Two buffers and two disks whose blocks hold their own numbers, at rest. -/
def twoDisks : Machine Nat 2 where
  ide := {
    buf _ := ⟨false, false, .one, 0, none, 0⟩
    idequeue _ := none
    idelock _ := false
    ctrl _ := ⟨[], 0, id⟩
    waiting _ := false
    submitted _ := []
    marked _ := []
    handling := none }
  fault := none

theorem idle_twoDisks : Idle twoDisks :=
  ⟨rfl, fun _ => rfl, fun _ => ⟨rfl, rfl, rfl, rfl, rfl⟩⟩

/-- A read of block `k` into buffer `b`. -/
def readReq (b : Fin 2) (d : Disk) (k : Nat) : Act Nat 2 := .submit ⟨b, d, k, false, false, 0⟩

/-- A read that is alone in its queue. -/
theorem protocol_always_lone_read :
    Trace.Always Protocol twoDisks
      [(readReq 0 .one 7, after twoDisks (readReq 0 .one 7)),
        (.intr .one, after (after twoDisks (readReq 0 .one 7)) (.intr .one))] :=
  (protocol_always_iff idle_twoDisks
    (.cons (step_after rfl (by decide)) (.cons (step_after (by decide) (by decide)) .nil))).mpr
    ⟨trivial, by decide, trivial⟩

/-- Two reads of disk 1, the second submitted before the first is done. -/
def overlappingReads : List (Act Nat 2 × Machine Nat 2) :=
  let m1 := after twoDisks (readReq 0 .one 7)
  let m2 := after m1 (readReq 1 .one 8)
  [(readReq 0 .one 7, m1), (readReq 1 .one 8, m2), (.intr .one, after m2 (.intr .one))]

/-- The interrupt for the first of two queued reads ends in a panic. -/
theorem not_protocol_overlappingReads : Idle twoDisks ∧ Trace Step twoDisks overlappingReads ∧
    ¬Trace.Always Protocol twoDisks overlappingReads := by
  refine ⟨idle_twoDisks, .cons (step_after rfl (by decide)) (.cons (step_after (by decide)
    (by decide)) (.cons (step_after (by decide) (by decide)) .nil)), fun h => ?_⟩
  have hlast := h.2 _ (List.getElem_mem (by decide : 2 < overlappingReads.length))
  exact absurd hlast.no_panic (by decide)

end Ide

end Xv6Rework
