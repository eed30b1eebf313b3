import Xv6Rework.Fs.Bio

/-!
# The log

`kernel/fs/log.c`.  The header block on disk is `struct logheader`: the count `n`
at offset 0 and the block numbers from offset 4 on, four bytes each.

`begin_op` that has to wait waits for another process's `end_op`, which a
function that runs alone will not see: it hangs.
-/

namespace Xv6Rework

open Prog

/-- Store to the log record. -/
def setLog (f : Log → Log) : StoreM Unit := update fun s => { s with log := f s.log }

/-! ## The header block -/

/-- An `int` from its 32 bits. -/
def toInt32 (x : Nat) : Int := if x < 2 ^ 31 then x else x - 2 ^ 32

/-- `lh->block[0 .. lh->n)`. -/
def headBlocks (d : Block) : List Nat :=
  (List.range (toInt32 (d.getLE 0 4)).toNat).map fun i => d.getLE (4 + 4 * i) 4

/-- The stores of `write_head` to the header block. -/
def fillHead (l : List Nat) (d : Block) : Block :=
  (List.range l.length).foldl (fun d i => d.setLE (4 + 4 * i) 4 (l.getD i 0)) (d.setLE 0 4 l.length)

/-- `read_head`. -/
def readHead : StoreM Unit := do
  let log ← gets fun s => s.log
  let buf ← bread log.dev log.start
  let lh ← gets fun s => headBlocks (s.buf buf).data
  setLog fun l => { l with block := lh }
  brelse buf

/-- `write_head`. -/
def writeHead : StoreM Unit := do
  let log ← gets fun s => s.log
  let buf ← bread log.dev log.start
  update fun s => s.setData buf (fillHead log.block (s.buf buf).data)
  bwrite buf
  brelse buf

/-! ## Copying -/

/-- The body of the loop of `install_trans`. -/
def installOne (tail : Nat) : StoreM Unit := do
  let log ← gets fun s => s.log
  let lbuf ← bread log.dev (log.start + tail + 1)
  let dbuf ← bread log.dev (log.block.getD tail 0)
  update fun s => s.setData dbuf (s.buf lbuf).data
  bwrite dbuf
  brelse lbuf
  brelse dbuf

/-- `install_trans`. -/
def installTrans : StoreM Unit := do
  (List.range (← gets fun s => s.log.n)).forM installOne

/-- The body of the loop of `write_log`. -/
def writeLogOne (tail : Nat) : StoreM Unit := do
  let log ← gets fun s => s.log
  let to' ← bread log.dev (log.start + tail + 1)
  let from' ← bread log.dev (log.block.getD tail 0)
  update fun s => s.setData to' (s.buf from').data
  bwrite to'
  brelse from'
  brelse to'

/-- `write_log`. -/
def writeLog : StoreM Unit := do
  (List.range (← gets fun s => s.log.n)).forM writeLogOne

/-! ## Commit and recovery -/

/-- `recover_from_log`. -/
def recoverFromLog : StoreM Unit := do
  readHead
  installTrans
  setLog fun l => { l with block := [] }
  writeHead

/-- `commit`. -/
def commit : StoreM Unit := do
  if 0 < (← gets fun s => s.log.n) then
    writeLog
    writeHead
    installTrans
    setLog fun l => { l with block := [] }
    writeHead

/-- `struct superblock`. -/
structure Superblock where
  size : Nat
  nblocks : Nat
  ninodes : Nat
  nlog : Nat
  logstart : Nat
  inodestart : Nat
  bmapstart : Nat
deriving DecidableEq, Repr

/-- The super block as it lies on disk. -/
def Superblock.ofBlock (d : Block) : Superblock where
  size := d.getLE 0 4
  nblocks := d.getLE 4 4
  ninodes := d.getLE 8 4
  nlog := d.getLE 12 4
  logstart := d.getLE 16 4
  inodestart := d.getLE 20 4
  bmapstart := d.getLE 24 4

/-- `readsb`, `fs.c`. -/
def readsb (dev : Nat) : StoreM Superblock := do
  let bp ← bread dev 1
  let sb ← gets fun s => Superblock.ofBlock (s.buf bp).data
  brelse bp
  pure sb

/-- `initlog`.  The test on `sizeof(struct logheader)` is on constants and
fails. -/
def initlog (dev : Nat) : StoreM Unit := do
  let sb ← readsb dev
  setLog fun l => { l with start := sb.logstart, size := sb.nlog, dev := dev }
  recoverFromLog

/-! ## Operations -/

/-- `begin_op`. -/
def beginOp : StoreM Unit := do
  let log ← gets fun s => s.log
  if log.committing then
    stop .hang
  else if log.n + (log.outstanding + 1) * MAXOPBLOCKS > LOGSIZE then
    stop .hang
  else
    setLog fun l => { l with outstanding := l.outstanding + 1 }

/-- `end_op`. -/
def endOp : StoreM Unit := do
  setLog fun l => { l with outstanding := l.outstanding - 1 }
  if (← gets fun s => s.log.committing) then
    halt "log.committing"
  if (← gets fun s => s.log.outstanding) = 0 then
    setLog fun l => { l with committing := true }
    commit
    setLog fun l => { l with committing := false }

/-- The loop of `log_write`: a block that is logged already is absorbed. -/
def absorb (l : List Nat) (blockno : Nat) : List Nat :=
  if blockno ∈ l then l else l ++ [blockno]

section

variable {l : List Nat} {b b' : Nat}

theorem mem_absorb : b ∈ absorb l b' ↔ b ∈ l ∨ b = b' := by
  unfold absorb
  split <;> simp
  rintro rfl
  assumption

theorem length_absorb_le : (absorb l b).length ≤ l.length + 1 := by
  unfold absorb
  split <;> simp

theorem nodup_absorb (h : l.Nodup) : (absorb l b).Nodup := by
  unfold absorb
  split_ifs with hb
  · exact h
  · refine List.nodup_append.2 ⟨h, List.nodup_singleton b, ?_⟩
    rintro x hx y hy rfl
    exact hb (List.mem_singleton.1 hy ▸ hx)

end

/-- The stores of `log_write` to `lh`. -/
def Log.add (l : Log) (blockno : Nat) : Log := { l with block := absorb l.block blockno }

/-- `log_write`. -/
def logWrite (b : Fin NBUF) : StoreM Unit := do
  let log ← gets fun s => s.log
  if LOGSIZE ≤ log.n ∨ (log.size : Int) - 1 ≤ log.n then
    halt "too big a transaction"
  else if log.outstanding < 1 then
    halt "log_write outside of trans"
  else
    let blockno ← gets fun s => (s.buf b).blockno
    setLog fun l => l.add blockno
    update fun s => s.setBuf b fun x => { x with dirty := true }

end Xv6Rework
