import Xv6Rework.Lib.Machine
import Xv6Rework.Fs.Param
import Mathlib.Logic.Function.Basic

/-!
# The IDE driver

`idestart`, `ideintr`, `ideintr2` and `iderw` of `kernel/drivers/ide.c` for the
two disks that have an interrupt handler, together with the two controllers.

A controller runs the commands `idestart` gives it one after the other and
raises one interrupt for each.  `idewait` finds it ready when it has nothing to
do.  Contents of blocks are values of a type `δ`; the number `n` of buffers is
arbitrary.

`iderw` is split where it sleeps: `iderw` submits its buffer, `iderwReturn` is
what it does once woken.  Processes are woken by `wakeup(b)`; here a process
that waits for `b` may look at the flags at any time.

Three fields of the state are there for the statements only: which buffers were
submitted, which were marked done, and by which command's interrupt.
-/

namespace Xv6Rework

open Prog

/-- The disks with an interrupt handler: device 1 and device 2. -/
inductive Disk where
  | one | two
deriving DecidableEq, Repr

/-- `struct buf`, as far as the driver uses it. -/
structure IdeBuf (δ : Type) (n : Nat) where
  valid : Bool
  dirty : Bool
  dev : Disk
  blockno : Nat
  qnext : Option (Fin n)
  data : δ
deriving DecidableEq, Repr

/-- A command given to a controller: what `idestart` writes to its ports. -/
structure Cmd (δ : Type) (n : Nat) where
  buf : Fin n
  write : Bool
  blockno : Nat
  data : δ
deriving DecidableEq, Repr

/-- A controller: the commands it has yet to complete, the data of the last read,
and the disk. -/
structure Controller (δ : Type) (n : Nat) where
  pending : List (Cmd δ n)
  port : δ
  disk : Nat → δ

/-- A record of a handler marking a buffer done: the command whose interrupt it
handled, the buffer's data, and the contents of the buffer's block. -/
structure Mark (δ : Type) (n : Nat) where
  buf : Fin n
  cmd : Option (Cmd δ n)
  data : δ
  block : δ
deriving DecidableEq, Repr

/-- The state of the driver and the two controllers.  `waiting b` says that a
process, which holds `b`'s lock, waits in `iderw` for `b`. -/
structure Ide (δ : Type) (n : Nat) where
  buf : Fin n → IdeBuf δ n
  idequeue : Disk → Option (Fin n)
  idelock : Disk → Bool
  ctrl : Disk → Controller δ n
  waiting : Fin n → Bool
  submitted : Disk → List (Fin n)
  marked : Disk → List (Mark δ n)
  handling : Option (Cmd δ n)

namespace Ide

variable {δ : Type} {n : Nat}

/-- Store to a buffer. -/
def setBuf (s : Ide δ n) (b : Fin n) (f : IdeBuf δ n → IdeBuf δ n) : Ide δ n :=
  { s with buf := Function.update s.buf b (f (s.buf b)) }

/-- Store to `idequeue` or `idequeue2`. -/
def setQueue (s : Ide δ n) (d : Disk) (b : Option (Fin n)) : Ide δ n :=
  { s with idequeue := Function.update s.idequeue d b }

/-- Change a controller. -/
def setCtrl (s : Ide δ n) (d : Disk) (f : Controller δ n → Controller δ n) : Ide δ n :=
  { s with ctrl := Function.update s.ctrl d (f (s.ctrl d)) }

/-- Store to `idelock` or `idelock2`. -/
def setLock (s : Ide δ n) (d : Disk) (held : Bool) : Ide δ n :=
  { s with idelock := Function.update s.idelock d held }

/-! ## The driver -/

/-- `acquire(&idelock)` or `acquire(&idelock2)`. -/
def acquire (d : Disk) : Prog (Ide δ n) Unit := do
  if (← gets fun s => s.idelock d) then halt "acquire" else update fun s => s.setLock d true

/-- `release(&idelock)` or `release(&idelock2)`. -/
def release (d : Disk) : Prog (Ide δ n) Unit := do
  if (← gets fun s => s.idelock d) then update fun s => s.setLock d false else halt "release"

/-- `idewait(dev, checkerr) >= 0`.  On a controller that is busy, or not there,
the loop returns `-1` at once. -/
def idewait (d : Disk) : Prog (Ide δ n) Bool :=
  gets fun s => (s.ctrl d).pending.isEmpty

/-- `idestart`. -/
def idestart (d : Disk) (b : Fin n) : Prog (Ide δ n) Unit := do
  let x ← gets fun s => s.buf b
  if FSSIZE ≤ x.blockno then
    halt "incorrect blockno"
  else
    update fun s => s.setCtrl d fun k =>
      { k with pending := k.pending ++ [⟨b, x.dirty, x.blockno, x.data⟩] }

/-- From `idequeue = b->qnext` to `wakeup(b)` in both handlers. -/
def finish (d : Disk) (b : Fin n) (ready : Prog (Ide δ n) Bool) : Prog (Ide δ n) Unit := do
  update fun s => s.setQueue d (s.buf b).qnext
  if !(← gets fun s => (s.buf b).dirty) && (← ready) then
    update fun s => s.setBuf b fun x => { x with data := (s.ctrl d).port }
  update fun s => s.setBuf b fun x => { x with valid := true, dirty := false }
  update fun s => { s with
    marked := Function.update s.marked d (s.marked d ++
      [⟨b, s.handling, (s.buf b).data, (s.ctrl d).disk (s.buf b).blockno⟩]) }

/-- The end of `ideintr`, which starts the next request.  Where there is one, the
lock is released twice. -/
def startNext : Prog (Ide δ n) Unit := do
  match (← gets fun s => s.idequeue .one) with
  | none => pure ()
  | some b =>
    idestart (← gets fun s => (s.buf b).dev) b
    update fun s => s.setQueue .one (s.buf b).qnext
    release .one
  release .one

/-- `ideintr`. -/
def ideintr : Prog (Ide δ n) Unit := do
  acquire .one
  match (← gets fun s => s.idequeue .one) with
  | none => release .one
  | some b =>
    finish .one b (idewait (← gets fun s => (s.buf b).dev))
    startNext

/-- The end of `ideintr2`, which starts the next request. -/
def startNext2 : Prog (Ide δ n) Unit := do
  match (← gets fun s => s.idequeue .two) with
  | none => pure ()
  | some b =>
    idestart (← gets fun s => (s.buf b).dev) b
    update fun s => s.setQueue .two (s.buf b).qnext
  release .two

/-- `ideintr2`.  On an empty queue it releases the other disk's lock. -/
def ideintr2 : Prog (Ide δ n) Unit := do
  acquire .two
  match (← gets fun s => s.idequeue .two) with
  | none => release .one
  | some b =>
    finish .two b (idewait .two)
    startNext2

/-- The loop of `iderw` to the end of the queue. -/
def findLast : Nat → Fin n → Prog (Ide δ n) (Fin n)
  | 0, _ => stop .hang
  | fuel + 1, b => do
    match (← gets fun s => (s.buf b).qnext) with
    | none => pure b
    | some b' => findLast fuel b'

/-- `iderw` appends its buffer to the queue. -/
def append (b : Fin n) (d : Disk) : Prog (Ide δ n) Unit := do
  update fun s => s.setBuf b fun x => { x with qnext := none }
  match (← gets fun s => s.idequeue d) with
  | none => update fun s => s.setQueue d (some b)
  | some h =>
    let last ← findLast n h
    update fun s => s.setBuf last fun x => { x with qnext := some b }

/-- `iderw`, up to its first `sleep`. -/
def iderw (b : Fin n) (d : Disk) : Prog (Ide δ n) Unit := do
  let x ← gets fun s => s.buf b
  if x.valid && !x.dirty then
    halt "iderw: nothing to do"
  acquire d
  append b d
  if (← gets fun s => s.idequeue d) = some b then
    idestart (← gets fun s => (s.buf b).dev) b
  release d

/-- `iderw` once woken: it returns if the buffer is done, and sleeps again
otherwise. -/
def iderwReturn (b : Fin n) (d : Disk) : Prog (Ide δ n) Unit := do
  acquire d
  if (← gets fun s => (s.buf b).valid && !(s.buf b).dirty) then
    update fun s => { s with waiting := Function.update s.waiting b false }
  release d

/-! ## The controllers -/

/-- The controller completes a command. -/
def Controller.complete (k : Controller δ n) (c : Cmd δ n) (rest : List (Cmd δ n)) :
    Controller δ n :=
  if c.write then { k with pending := rest, disk := Function.update k.disk c.blockno c.data }
  else { k with pending := rest, port := k.disk c.blockno }

/-- The handler of each disk. -/
def handler : Disk → Prog (Ide δ n) Unit
  | .one => ideintr
  | .two => ideintr2

/-- An interrupt: a command completes, or it is spurious and the queue is empty. -/
def interrupt (d : Disk) : Prog (Ide δ n) Unit := do
  match (← gets fun s => (s.ctrl d).pending) with
  | c :: rest =>
    update fun s => { s.setCtrl d fun k => Controller.complete k c rest with handling := some c }
  | [] =>
    if (← gets fun s => s.idequeue d).isSome then stop .hang
    update fun s => { s with handling := none }
  handler d

/-! ## The machine -/

/-- A request: a buffer as its caller, who holds its lock, hands it to `iderw`. -/
structure Request (δ : Type) (n : Nat) where
  buf : Fin n
  dev : Disk
  blockno : Nat
  valid : Bool
  dirty : Bool
  data : δ
deriving DecidableEq, Repr

/-- There is something to do, on a block of the disk. -/
def Request.Proper (r : Request δ n) : Prop := (r.valid && !r.dirty) = false ∧ r.blockno < FSSIZE

instance (r : Request δ n) : Decidable r.Proper := inferInstanceAs (Decidable (_ ∧ _))

/-- A submission, an interrupt, or the return of a submission. -/
inductive Act (δ : Type) (n : Nat) where
  | submit (r : Request δ n)
  | intr (d : Disk)
  | ret (b : Fin n)
deriving DecidableEq, Repr

/-- The code a step runs.  Only a buffer whose last submission has returned can be
locked and submitted again. -/
def exec : Act δ n → Prog (Ide δ n) Unit
  | .submit r => do
    if (← gets fun s => s.waiting r.buf) || !decide r.Proper then stop .hang
    update fun s => s.setBuf r.buf fun x => { x with
      valid := r.valid, dirty := r.dirty, dev := r.dev, blockno := r.blockno, data := r.data }
    update fun s => { s with
      waiting := Function.update s.waiting r.buf true
      submitted := Function.update s.submitted r.dev (s.submitted r.dev ++ [r.buf]) }
    iderw r.buf r.dev
  | .intr d => interrupt d
  | .ret b => do
    if !(← gets fun s => s.waiting b) then stop .hang
    iderwReturn b (← gets fun s => (s.buf b).dev)

/-- The machine, with the panic that stopped it if one did. -/
structure Machine (δ : Type) (n : Nat) where
  ide : Ide δ n
  fault : Option String

/-- A step of the machine; a step that would wait forever is not taken. -/
def Step (s : Machine δ n) (act : Act δ n) (s' : Machine δ n) : Prop :=
  s.fault = none ∧ match exec act s.ide with
    | (.ok (), t) => s' = ⟨t, none⟩
    | (.error (.panic msg), t) => s' = ⟨t, some msg⟩
    | (.error .hang, _) => False

/-- The driver at rest, with any disks and any contents of the buffers. -/
def Idle (s : Machine δ n) : Prop :=
  s.fault = none ∧ (∀ b, s.ide.waiting b = false) ∧ ∀ d, s.ide.idequeue d = none ∧
    s.ide.idelock d = false ∧ (s.ide.ctrl d).pending = [] ∧ s.ide.submitted d = [] ∧
    s.ide.marked d = []

end Ide

end Xv6Rework
