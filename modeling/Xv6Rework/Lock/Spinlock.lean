import Xv6Rework.Lib.Machine
import Mathlib.Data.List.Nodup

/-!
# Spin locks

`kernel/lock/spinlock.c` on any number of CPUs and locks, whose steps interleave.  A step makes
one store to the memory that they share, which all see at once, or is the start of a call with its
`holding`.

A CPU may call `acquire` and `release` of any lock whenever it is in neither of them, and turn its
interrupts on and off while no `pushcli` is open.  `mycpu` would panic with interrupts on, which
they are not where it is called.  The record of the call stack is left out, as is what `sched`
does to `intena`.

Two fields of a CPU are there for the statements only: the locks that it has, and whether its
interrupts were on before the first of them. -/

namespace Xv6Rework.Spinlock

/-- What a CPU does next. -/
inductive Pc (L : Type) where
  | out
  | spin (lk : L)
  | record (lk : L)
  | clear (lk : L)
  | unlock (lk : L)
  | panic (msg : String)
deriving DecidableEq

/-- How many calls of `pushcli` are open, beside one for each lock. -/
def Pc.pushed {L : Type} : Pc L → Int
  | spin _ | record _ => 1
  | _ => 0

/-- `struct cpu`, with the interrupt flag of the processor. -/
structure Cpu (L : Type) where
  ncli : Int
  intena : Bool
  interrupts : Bool
  pc : Pc L
  held : List L
  before : Bool

/-- The fields `locked` and `cpu` of each `struct spinlock`, and the CPUs. -/
structure State (C L : Type) where
  locked : L → Bool
  owner : L → Option C
  cpu : C → Cpu L

inductive Call where
  | acquire
  | release

/-- What a call does next, by the result of `holding`. -/
def Call.next {L : Type} (lk : L) (holding : Bool) : Call → Pc L
  | acquire => if holding then .panic "acquire" else .spin lk
  | release => if holding then .clear lk else .panic "release"

/-- A call, a store, or a change of the interrupt flag. -/
inductive Act (C L : Type) where
  | call (c : C) (f : Call) (lk : L)
  | go (c : C)
  | setInterrupts (c : C) (on : Bool)

variable {C L : Type}

/-- `pushcli`. -/
def pushcli (x : Cpu L) : Cpu L :=
  { x with
    interrupts := false
    intena := if x.ncli = 0 then x.interrupts else x.intena
    ncli := x.ncli + 1 }

/-- `popcli`, and on to `next`. -/
def popcli (next : Pc L) (x : Cpu L) : Cpu L :=
  if x.interrupts then
    { x with pc := .panic "popcli - interruptible" }
  else if x.ncli - 1 < 0 then
    { x with ncli := x.ncli - 1, pc := .panic "popcli" }
  else
    { x with ncli := x.ncli - 1, interrupts := decide (x.ncli - 1 = 0) && x.intena, pc := next }

/-- The next store of a CPU: its own part. -/
def Cpu.advance [DecidableEq L] (x : Cpu L) : Cpu L :=
  match x.pc with
  | .spin lk => { x with pc := .record lk }
  | .record lk => { x with pc := .out, held := lk :: x.held }
  | .clear lk => { x with pc := .unlock lk }
  | .unlock lk => popcli .out { x with held := x.held.erase lk }
  | .out | .panic _ => x

/-- `acquire` or `release` is entered. -/
def enter (x : Cpu L) : Cpu L := { x with before := if x.held = [] then x.interrupts else x.before }

namespace State

variable [DecidableEq C] (s : State C L)

def setCpu (c : C) (x : Cpu L) : State C L := { s with cpu := Function.update s.cpu c x }

/-- `holding`, between its `pushcli` and its `popcli`. -/
def holding (c : C) (lk : L) : Bool := s.locked lk && s.owner lk == some c

/-- The next store of a CPU. -/
def go [DecidableEq L] (c : C) : Option (State C L) :=
  let s' := s.setCpu c (s.cpu c).advance
  match (s.cpu c).pc with
  | .out | .panic _ => none
  -- `xchg` stores what is there already, or takes the lock
  | .spin lk =>
    if s.locked lk then some s else some { s' with locked := Function.update s.locked lk true }
  | .record lk => some { s' with owner := Function.update s.owner lk (some c) }
  | .clear lk => some { s' with owner := Function.update s.owner lk none }
  | .unlock lk => some { s' with locked := Function.update s.locked lk false }

/-- A call up to its first store.  Before `holding`, which has a `pushcli` of its own, `acquire`
calls it. -/
def call (c : C) (lk : L) (f : Call) : Cpu L :=
  let x := enter (s.cpu c)
  popcli (f.next lk (s.holding c lk))
    (pushcli (match f with | .acquire => pushcli x | .release => x))

def step [DecidableEq L] : Act C L → Option (State C L)
  | .call c f lk => if (s.cpu c).pc = .out then some (s.setCpu c (s.call c lk f)) else none
  | .go c => s.go c
  | .setInterrupts c on =>
    if (s.cpu c).pc = .out ∧ (s.cpu c).ncli = 0 then
      some (s.setCpu c { s.cpu c with interrupts := on }) else none

end State

/-- The locks after `initlock`, on CPUs that are in no call. -/
structure Start (s : State C L) : Prop where
  locked : ∀ lk, s.locked lk = false
  owner : ∀ lk, s.owner lk = none
  pc : ∀ c, (s.cpu c).pc = .out
  ncli : ∀ c, (s.cpu c).ncli = 0
  held : ∀ c, (s.cpu c).held = []

/-- A CPU has set `locked`, and not cleared it again. -/
def Cpu.Owns (x : Cpu L) (lk : L) : Prop := lk ∈ x.held ∨ x.pc = .record lk

/-- What `lk->cpu` says of a CPU. -/
def Cpu.Named (x : Cpu L) (lk : L) : Prop := lk ∈ x.held ∧ x.pc ≠ .unlock lk

/-- What is true of a CPU by itself. -/
structure Cpu.Sound (x : Cpu L) : Prop where
  nodup : x.held.Nodup
  fresh : ∀ lk, x.pc = .spin lk ∨ x.pc = .record lk → lk ∉ x.held
  mine : ∀ lk, x.pc = .clear lk ∨ x.pc = .unlock lk → lk ∈ x.held
  count : (∀ m, x.pc ≠ .panic m) → x.ncli = x.held.length + x.pc.pushed
  off : (∀ m, x.pc ≠ .panic m) → 0 < x.ncli → x.interrupts = false ∧ x.intena = x.before
  panic : ∀ m, x.pc = .panic m → m = "acquire" ∨ m = "release"

structure Inv (s : State C L) : Prop where
  sound : ∀ c, (s.cpu c).Sound
  locked : ∀ lk, s.locked lk = true ↔ ∃ c, (s.cpu c).Owns lk
  sole : ∀ c c' lk, (s.cpu c).Owns lk → (s.cpu c').Owns lk → c = c'
  owner : ∀ c lk, s.owner lk = some c ↔ (s.cpu c).Named lk

/-! ## The invariant -/

variable {s s' : State C L} {c : C} {lk : L} {x : Cpu L}

/-- A store keeps a CPU sound. -/
theorem Cpu.Sound.advance [DecidableEq L] (h : x.Sound) : x.advance.Sound := by
  have hlen := fun lk hpc => List.length_erase_of_mem (h.mine lk hpc)
  have hnodup' := fun lk => h.nodup.erase lk
  obtain ⟨hnodup, hfresh, hmine, hcount, hoff, hpanic⟩ := h
  -- in `popcli`, `ncli` counts the lock that is given back, and interrupts are off
  cases hpc : x.pc <;> simp only [Cpu.advance, hpc] <;> constructor <;> grind [popcli, Pc.pushed]

/-- At the end of `release` the call of `popcli` does not panic. -/
theorem Cpu.Sound.advance_unlock [DecidableEq L] (h : x.Sound) (lk : L) (hpc : x.pc = .unlock lk) :
    x.advance.pc = .out ∧ x.advance.held = x.held.erase lk ∧
      x.advance.interrupts = (decide (x.held.erase lk = []) && x.before) := by
  have hlen := List.length_erase_of_mem (h.mine lk (.inr hpc))
  have hempty := @List.length_eq_zero_iff _ (x.held.erase lk)
  obtain ⟨hnodup, hfresh, hmine, hcount, hoff, hpanic⟩ := h
  simp only [Cpu.advance, hpc]
  refine ⟨?_, ?_, ?_⟩ <;> grind [popcli, Pc.pushed]

theorem Start.inv (h : Start s) : Inv s := by
  refine ⟨fun c => ?_, fun lk => ?_, fun c c' lk hc => ?_, fun c lk => ?_⟩
  · constructor <;> simp [h.pc, h.held, h.ncli, Pc.pushed]
  · simp [h.locked, Cpu.Owns, h.pc, h.held]
  · simp [Cpu.Owns, h.pc, h.held] at hc
  · simp [h.owner, Cpu.Named, h.held]

variable [DecidableEq C]

/-- A call keeps a CPU sound, and `holding` tells whether it has the lock. -/
theorem Inv.call [DecidableEq L] (lk : L) (f : Call) (h : Inv s) (hpc : (s.cpu c).pc = .out) :
    (s.call c lk f).Sound ∧ (s.call c lk f).held = (s.cpu c).held ∧
      (s.call c lk f).pc = f.next lk (decide (lk ∈ (s.cpu c).held)) := by
  have hheld : s.holding c lk = decide (lk ∈ (s.cpu c).held) := by
    have hlocked := fun hmem => (h.locked lk).2 ⟨c, .inl hmem⟩
    have howner := h.owner c lk
    grind [Cpu.Named, State.holding]
  have hlen := @List.length_pos_iff _ (s.cpu c).held
  obtain ⟨hnodup, hfresh, hmine, hcount, hoff, hpanic⟩ := h.sound c
  simp only [State.call, hheld]
  refine ⟨?_, ?_, ?_⟩
  · cases f <;> constructor <;> grind [popcli, pushcli, enter, Pc.pushed, Call.next]
  all_goals cases f <;> grind [popcli, pushcli, enter, Pc.pushed]

/-- A step of one CPU: it takes only locks that nobody has. -/
theorem Inv.store {locked : L → Bool} {owner : L → Option C} (h : Inv s) (hx : x.Sound)
    (hlocked : ∀ lk, locked lk = true ↔ x.Owns lk ∨ s.locked lk = true ∧ ¬(s.cpu c).Owns lk)
    (hfree : ∀ lk, x.Owns lk → (s.cpu c).Owns lk ∨ s.locked lk = false)
    (howner : ∀ c' lk, owner lk = some c' ↔ if c' = c then x.Named lk else s.owner lk = some c') :
    Inv ⟨locked, owner, Function.update s.cpu c x⟩ := by
  obtain ⟨hsound, hlocked', hsole, howner'⟩ := h
  constructor <;> simp only [Function.update_apply] <;> grind

/-- A step that touches no lock. -/
theorem Inv.setCpu (h : Inv s) (hx : x.Sound) (howns : ∀ lk, x.Owns lk ↔ (s.cpu c).Owns lk)
    (hnamed : ∀ lk, x.Named lk ↔ (s.cpu c).Named lk) : Inv (s.setCpu c x) := by
  obtain ⟨-, hlocked, -, howner⟩ := id h
  refine h.store hx ?_ ?_ ?_ <;> grind

variable [DecidableEq L]

/-- A store to a lock. -/
theorem Inv.go (h : Inv s) (hs : s.go c = some s') : Inv s' := by
  have hx := (h.sound c).advance
  have hmine := (h.sound c).mine
  have hunlock := (h.sound c).advance_unlock
  have herase := fun lk lk' => ((h.sound c).nodup.mem_erase_iff : lk' ∈ (s.cpu c).held.erase lk ↔ _)
  obtain ⟨-, hlocked, hsole, howner⟩ := id h
  simp only [Cpu.Owns, Cpu.Named] at hlocked hsole howner
  cases hpc : (s.cpu c).pc with
  | out | panic => simp [State.go, hpc] at hs
  | spin lk =>
    simp only [State.go, hpc] at hs
    split at hs
    · exact Option.some.inj hs ▸ h
    -- nobody has the lock
    rw [← Option.some.inj hs]
    refine h.store hx ?_ ?_ ?_ <;> simp only [State.setCpu, Function.update_apply, Cpu.Owns,
      Cpu.Named] <;> grind [Cpu.advance]
  | record lk | clear lk | unlock lk =>
    simp only [State.go, hpc, Option.some.injEq] at hs
    rw [← hs]
    refine h.store hx ?_ ?_ ?_ <;> simp only [State.setCpu, Function.update_apply, Cpu.Owns,
      Cpu.Named] <;> grind [Cpu.advance]

theorem inv_of_reach (h : Reach Start (fun s a s' => State.step s a = some s') s) : Inv s := by
  refine h.invariant (fun s hs => hs.inv) fun s a s' h hs => ?_
  cases a with
  | call c f lk =>
    rw [State.step, Option.ite_none_right_eq_some] at hs
    obtain ⟨hpc, hs⟩ := hs
    obtain ⟨hx, hheld, hnext⟩ := h.call lk f hpc
    refine Option.some.inj hs ▸ h.setCpu hx ?_ ?_
    all_goals cases f <;> grind [Call.next, Cpu.Owns, Cpu.Named]
  | go c => exact h.go hs
  | setInterrupts c on =>
    rw [State.step, Option.ite_none_right_eq_some] at hs
    obtain ⟨⟨-, hn⟩, hs⟩ := hs
    refine Option.some.inj hs ▸ h.setCpu ?_ (fun _ => .rfl) (fun _ => .rfl)
    exact { h.sound c with off := fun _ hpos => absurd hn (Int.ne_of_gt hpos) }

/-- At any time a lock is with one CPU at most, whose interrupts are off, and no CPU waits for
itself. Only calls that are made wrongly panic, and the last `release` gives the interrupts back
as they were. -/
theorem mutual_exclusion (h : Reach Start (fun s a s' => State.step s a = some s') s)
    (c : C) (lk : L) :
    (lk ∈ (s.cpu c).held → s.locked lk = true ∧ ∀ c', lk ∈ (s.cpu c').held → c' = c) ∧
      ((∀ m, (s.cpu c).pc ≠ .panic m) → (s.cpu c).held ≠ [] ∨ (s.cpu c).pc ≠ .out →
        (s.cpu c).interrupts = false) ∧
      ((s.cpu c).pc = .spin lk → s.locked lk = true → ∃ c', c' ≠ c ∧ (s.cpu c').Owns lk) ∧
      ((s.cpu c).pc = .out → ∀ f, ∃ s', s.step (.call c f lk) = some s' ∧
        (s'.cpu c).pc = f.next lk (decide (lk ∈ (s.cpu c).held))) ∧
      (∀ m, (s.cpu c).pc = .panic m → m = "acquire" ∨ m = "release") ∧
      ((s.cpu c).pc = .unlock lk → ∃ s', s.step (.go c) = some s' ∧ s'.locked lk = false ∧
        (s'.cpu c).held = (s.cpu c).held.erase lk ∧
        (s'.cpu c).interrupts = (decide ((s'.cpu c).held = []) && (s.cpu c).before)) := by
  have h := inv_of_reach h
  have hx := h.sound c
  refine ⟨fun hlk => ⟨(h.locked lk).2 ⟨c, .inl hlk⟩, fun c' hc' => h.sole c' c lk
    (.inl hc') (.inl hlk)⟩, fun hpc hheld => ?_, fun hpc hlk => ?_, fun hpc f => ?_, hx.panic,
    fun hpc => ?_⟩
  · have hcount := hx.count hpc
    have hmine := hx.mine
    have hlen := @List.length_pos_iff _ (s.cpu c).held
    refine (hx.off hpc ?_).1
    cases hpc' : (s.cpu c).pc <;> grind [Pc.pushed]
  · obtain ⟨c', hc'⟩ := (h.locked lk).1 hlk
    have hfresh := hx.fresh lk
    exact ⟨c', by grind [Cpu.Owns], hc'⟩
  · exact ⟨_, if_pos hpc, by simp [State.setCpu, (h.call lk f hpc).2.2]⟩
  · simp [State.step, State.go, hpc, State.setCpu, hx.advance_unlock lk hpc]

/-- Two CPUs and a lock. -/
def idle : State Bool Unit :=
  ⟨fun _ => false, fun _ => none, fun _ => ⟨0, true, true, .out, [], true⟩⟩

def contended : List (Act Bool Unit) :=
  [.call false .acquire (), .go false, .go false, .call true .acquire ()]

theorem mutual_exclusion_contended : ∃ s, contended.foldlM (fun s a => s.step a) idle = some s ∧
    (∀ c, () ∈ (s.cpu c).held → c = false) ∧ ∃ c, c ≠ true ∧ (s.cpu c).Owns () := by
  have hrun := Option.eq_some_of_isSome (rfl : (contended.foldlM (fun s a => State.step s a)
    idle).isSome)
  have hreach := Reach.foldlM (.init (by constructor <;> exact fun _ => rfl : Start idle)) hrun
  exact ⟨_, hrun, ((mutual_exclusion hreach false ()).1 (.head _)).2,
    (mutual_exclusion hreach true ()).2.2.1 rfl rfl⟩

end Xv6Rework.Spinlock
