import Xv6Rework.Lib.Bytes
import Xv6Rework.Lib.Prog
import Xv6Rework.Fs.Param

/-!
# The buffer cache

`kernel/fs/bio.c`, on a state that also holds the disks and the log record of
`kernel/fs/log.c`.

A function of this layer runs from one call to its return with no other process
in between, so the spin locks `bcache.lock` and `log.lock` are always free when
asked for and are left out.  A buffer's sleep lock stays: asking for one that is
already taken is asking for one's own, and waits forever.

`iderw` is the driver seen from its callers.  A request for disk 1 or disk 2 is
carried out before it returns; disks 3 to 8 have no interrupt handler, so a
request to one of them never returns; for any other device number the `switch`
has no case and nothing happens at all.
-/

namespace Xv6Rework

open Prog

/-- The contents of a disk block. -/
abbrev Block := Bytes BSIZE

/-- A device and a block number on it. -/
abbrev BlockId := Nat × Nat

/-- `struct buf`.  The flags `B_VALID` and `B_DIRTY` and the state of the sleep
lock are booleans. -/
structure Buf where
  dev : Nat
  blockno : Nat
  valid : Bool
  dirty : Bool
  locked : Bool
  refcnt : Nat
  data : Block
deriving DecidableEq

/-- The block a buffer is for. -/
def Buf.id (x : Buf) : BlockId := (x.dev, x.blockno)

/-- `struct log`.  `block` lists the first `n` entries of `lh.block`; the entries
from `n` on are never read. -/
structure Log where
  start : Nat
  size : Nat
  outstanding : Int
  committing : Bool
  dev : Nat
  block : List Nat
deriving DecidableEq

/-- `log.lh.n`. -/
def Log.n (l : Log) : Nat := l.block.length

/-- The disks, the buffer cache and the log.  `lru` lists the buffers from
`head.next` on.  `writes` records the writes made to the disks, in order; it is
there for the statements only. -/
structure Store where
  disk : BlockId → Block
  buf : Fin NBUF → Buf
  lru : List (Fin NBUF)
  log : Log
  writes : List (BlockId × Block)

/-- Code that runs on the block layer's state. -/
abbrev StoreM := Prog Store

/-- Store to a buffer. -/
def Store.setBuf (s : Store) (b : Fin NBUF) (f : Buf → Buf) : Store :=
  { s with buf := Function.update s.buf b (f (s.buf b)) }

/-- `memmove` to, or any other change of, a buffer's data. -/
def Store.setData (s : Store) (b : Fin NBUF) (d : Block) : Store :=
  s.setBuf b fun x => { x with data := d }

section

variable (s : Store) (b b' : Fin NBUF) (f : Buf → Buf) (d : Block)

@[simp] theorem setBuf_buf_self : (s.setBuf b f).buf b = f (s.buf b) := by simp [Store.setBuf]

theorem setBuf_buf : (s.setBuf b f).buf b' = if b' = b then f (s.buf b) else s.buf b' := by
  simp [Store.setBuf, Function.update_apply]

@[simp] theorem setBuf_disk : (s.setBuf b f).disk = s.disk := rfl
@[simp] theorem setBuf_lru : (s.setBuf b f).lru = s.lru := rfl
@[simp] theorem setBuf_log : (s.setBuf b f).log = s.log := rfl
@[simp] theorem setBuf_writes : (s.setBuf b f).writes = s.writes := rfl

end

/-- The state `binit` leaves after a reset, when the globals are zero. -/
def binit (disk : BlockId → Block) : Store where
  disk := disk
  buf _ := ⟨0, 0, false, false, false, 0, Bytes.zero⟩
  lru := (List.finRange NBUF).reverse
  log := ⟨0, 0, 0, false, 0, []⟩
  writes := []

/-! ## The driver, from outside -/

/-- The transfer a completed request stands for. -/
def Store.transfer (s : Store) (b : Fin NBUF) : Store :=
  let x := s.buf b
  if x.dirty then
    { s.setBuf b fun x => { x with valid := true, dirty := false } with
      disk := Function.update s.disk x.id x.data
      writes := s.writes ++ [(x.id, x.data)] }
  else
    s.setBuf b fun x => { x with valid := true, data := s.disk x.id }

theorem Store.transfer_log (s : Store) (b : Fin NBUF) : (s.transfer b).log = s.log := by
  unfold Store.transfer
  dsimp only
  split <;> rfl

/-- `iderw`. -/
def iderw (b : Fin NBUF) (dev : Nat) : StoreM Unit := do
  let x ← gets fun s => s.buf b
  if !x.locked then
    halt "iderw: buf not locked"
  else if x.valid && !x.dirty then
    halt "iderw: nothing to do"
  else if dev = 1 ∨ dev = 2 then
    if FSSIZE ≤ x.blockno then
      halt "incorrect blockno"
    else
      update fun s => s.transfer b
  else if 3 ≤ dev ∧ dev ≤ 8 then
    stop .hang
  else
    pure ()

/-! ## The cache -/

/-- `acquiresleep(&b->lock)`. -/
def acquiresleep (b : Fin NBUF) : StoreM Unit := do
  if (← gets fun s => (s.buf b).locked) then
    stop .hang
  else
    update fun s => s.setBuf b fun x => { x with locked := true }

/-- The first loop of `bget`: the buffer that caches a block. -/
def Store.lookup (s : Store) (dev blockno : Nat) : Option (Fin NBUF) :=
  s.lru.find? fun b => (s.buf b).dev == dev && (s.buf b).blockno == blockno

/-- The second loop of `bget`: the least recently used buffer that nobody holds
and that the log has not pinned. -/
def Store.unused (s : Store) : Option (Fin NBUF) :=
  s.lru.reverse.find? fun b => (s.buf b).refcnt == 0 && !(s.buf b).dirty

/-- `bget`. -/
def bget (dev blockno : Nat) : StoreM (Fin NBUF) := do
  match (← gets fun s => s.lookup dev blockno) with
  | some b =>
    update fun s => s.setBuf b fun x => { x with refcnt := x.refcnt + 1 }
    acquiresleep b
    pure b
  | none =>
    match (← gets fun s => s.unused) with
    | some b =>
      update fun s => s.setBuf b fun x => { x with
        dev := dev, blockno := blockno, valid := false, dirty := false, refcnt := 1 }
      acquiresleep b
      pure b
    | none => halt "bget: no buffers"

/-- `bread`. -/
def bread (dev blockno : Nat) : StoreM (Fin NBUF) := do
  let b ← bget dev blockno
  if !(← gets fun s => (s.buf b).valid) then
    iderw b dev
  pure b

/-- `bwrite`. -/
def bwrite (b : Fin NBUF) : StoreM Unit := do
  if !(← gets fun s => (s.buf b).locked) then
    halt "bwrite"
  update fun s => s.setBuf b fun x => { x with dirty := true }
  iderw b (← gets fun s => (s.buf b).dev)

/-- `brelse`. -/
def brelse (b : Fin NBUF) : StoreM Unit := do
  if !(← gets fun s => (s.buf b).locked) then
    halt "brelse"
  update fun s => s.setBuf b fun x => { x with locked := false, refcnt := x.refcnt - 1 }
  if (← gets fun s => (s.buf b).refcnt) = 0 then
    update fun s => { s with lru := b :: s.lru.erase b }

end Xv6Rework
