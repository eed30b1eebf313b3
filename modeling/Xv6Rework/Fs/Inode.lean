import Xv6Rework.Fs.State

/-!
# Blocks, inodes and their contents

`kernel/fs/fs.c` up to `writei`: allocation of blocks and inodes, the inode
caches, and reading and writing what an inode refers to.

`readi` returns the bytes it stores at `dst` beside its result; `writei` reads its
bytes from `src`, a function from offsets.
-/

namespace Xv6Rework.Fs

open Prog

/-! ## Blocks -/

/-- `BBLOCK`. -/
def BBLOCK (b : Nat) (sb : Superblock) : Nat := b / BPB + sb.bmapstart

/-- `IBLOCK`. -/
def IBLOCK (inum : Nat) (sb : Superblock) : Nat := inum / IPB + sb.inodestart

/-- `bzero`. -/
def bzero (dev bno : Nat) : FsM Unit := do
  let bp ← bread dev bno
  modifyData bp fun _ => Bytes.zero
  logWrite bp
  brelse bp

/-- The inner loop of `balloc`: the first free block that a block of the free map
covers. -/
def freeBit (d : Block) (b size : Nat) : Option Nat :=
  (List.range (min BPB (size - b))).find? fun bi => !bitSet d bi

/-- The outer loop of `balloc`, from block `b` on. -/
def ballocLoop (dev : Nat) (sb : Superblock) : Nat → Nat → FsM Nat
  | 0, _ => halt "balloc: out of blocks"
  | k + 1, b => do
    if b < sb.size then
      let bp ← bread dev (BBLOCK b sb)
      match freeBit (← data bp) b sb.size with
      | some bi =>
        modifyData bp fun d => setBit d bi
        logWrite bp
        brelse bp
        bzero dev (b + bi)
        pure (b + bi)
      | none =>
        brelse bp
        ballocLoop dev sb k (b + BPB)
    else
      halt "balloc: out of blocks"

/-- `balloc`. -/
def balloc (dev : Nat) : FsM Nat := do
  let sb ← gets fun s => s.superblock dev
  ballocLoop dev sb (sb.size / BPB + 1) 0

/-- `bfree`. -/
def bfree (dev b : Nat) : FsM Unit := do
  let sb ← gets fun s => s.superblock dev
  let bp ← bread dev (BBLOCK b sb)
  if !bitSet (← data bp) (b % BPB) then
    halt "freeing free block"
  modifyData bp fun d => clearBit d (b % BPB)
  logWrite bp
  brelse bp

/-! ## Inodes -/

/-- The cache that a device's inodes are kept in. -/
def icache (dev : Nat) : List Slot := (List.finRange NINODE).map fun i => (decide (dev = 2), i)

/-- The entry for an inode, if it is cached. -/
def cached (s : Fs) (dev inum : Nat) : Option Slot :=
  (icache dev).find? fun ip =>
    0 < (s.inode ip).ref && (s.inode ip).dev == dev && (s.inode ip).inum == inum

/-- The first unused entry. -/
def empty (s : Fs) (dev : Nat) : Option Slot := (icache dev).find? fun ip => (s.inode ip).ref == 0

/-- `iget`. -/
def iget (dev inum : Nat) : FsM Slot := do
  match (← gets fun s => s.cached dev inum) with
  | some ip =>
    setInode ip fun x => { x with ref := x.ref + 1 }
    pure ip
  | none =>
    match (← gets fun s => s.empty dev) with
    | some ip =>
      setInode ip fun x => { x with dev := dev, inum := inum, ref := 1, valid := false }
      pure ip
    | none => halt "iget: no inodes"

/-- The loop of `ialloc`, from inode `inum` on. -/
def iallocLoop (dev : Nat) (sb : Superblock) (type : Nat) : Nat → Nat → FsM Slot
  | 0, _ => halt "ialloc: no inodes"
  | k + 1, inum => do
    let bp ← bread dev (IBLOCK inum sb)
    if (Dinode.ofBlock (← data bp) (inum % IPB)).type = 0 then
      modifyData bp fun d => Dinode.store { Dinode.zero with type := type } (inum % IPB) d
      logWrite bp
      brelse bp
      iget dev inum
    else
      brelse bp
      iallocLoop dev sb type k (inum + 1)

/-- `ialloc`.  It never returns a null pointer. -/
def ialloc (dev type : Nat) : FsM Slot := do
  let sb ← gets fun s => s.superblock dev
  iallocLoop dev sb type (sb.ninodes - 1) 1

/-- `iupdate`. -/
def iupdate (ip : Slot) : FsM Unit := do
  let x ← gets fun s => s.inode ip
  if x.isMountPoint then
    pure ()
  else
    let sb ← gets fun s => s.superblock x.dev
    let bp ← bread x.dev (IBLOCK x.inum sb)
    modifyData bp fun d => x.toDinode.store (x.inum % IPB) d
    logWrite bp
    brelse bp

/-- `idup`. -/
def idup (ip : Slot) : FsM Slot := do
  setInode ip fun x => { x with ref := x.ref + 1 }
  pure ip

/-- `acquiresleep(&ip->lock)`. -/
def acquiresleep (ip : Slot) : FsM Unit := do
  if (← gets fun s => (s.inode ip).locked) then
    stop .hang
  else
    setInode ip fun x => { x with locked := true }

/-- `releasesleep(&ip->lock)`. -/
def releasesleep (ip : Slot) : FsM Unit := setInode ip fun x => { x with locked := false }

/-- `ilock`. -/
def ilock (ip : Slot) : FsM Unit := do
  if (← gets fun s => (s.inode ip).ref) < 1 then
    halt "ilock"
  acquiresleep ip
  let x ← gets fun s => s.inode ip
  if !x.valid then
    let sb ← gets fun s => s.superblock x.dev
    let bp ← bread x.dev (IBLOCK x.inum sb)
    let dip := Dinode.ofBlock (← data bp) (x.inum % IPB)
    setInode ip fun x => { x with toDinode := dip }
    brelse bp
    setInode ip fun x => { x with valid := true }
    if dip.type = 0 then
      halt "ilock: no type"

/-- `iunlock`. -/
def iunlock (ip : Slot) : FsM Unit := do
  let x ← gets fun s => s.inode ip
  if !x.locked ∨ x.ref < 1 then
    halt "iunlock"
  releasesleep ip

/-- The first loop of `itrunc`. -/
def itruncDirect (ip : Slot) (i : Nat) : FsM Unit := do
  let x ← gets fun s => s.inode ip
  if x.addrs i ≠ 0 then
    bfree x.dev (x.addrs i)
    setInode ip fun x => { x with addrs := Function.update x.addrs i 0 }

/-- The second loop of `itrunc`. -/
def itruncIndirect (dev : Nat) (bp : Fin NBUF) (j : Nat) : FsM Unit := do
  let a := (← data bp).getLE (4 * j) 4
  if a ≠ 0 then
    bfree dev a

/-- `itrunc`. -/
def itrunc (ip : Slot) : FsM Unit := do
  (List.range NDIRECT).forM (itruncDirect ip)
  let x ← gets fun s => s.inode ip
  if x.addrs NDIRECT ≠ 0 then
    let bp ← bread x.dev (x.addrs NDIRECT)
    (List.range NINDIRECT).forM (itruncIndirect x.dev bp)
    brelse bp
    bfree x.dev (x.addrs NDIRECT)
    setInode ip fun x => { x with addrs := Function.update x.addrs NDIRECT 0 }
  setInode ip fun x => { x with size := 0 }
  iupdate ip

/-- The part of `iput` that frees an inode without links. -/
def ifree (ip : Slot) : FsM Unit := do
  itrunc ip
  setInode ip fun x => { x with type := 0 }
  iupdate ip
  setInode ip fun x => { x with valid := false }

/-- `iput`. -/
def iput (ip : Slot) : FsM Unit := do
  record (.iput ip (← gets fun s => (s.inode ip).ref))
  acquiresleep ip
  let x ← gets fun s => s.inode ip
  if x.valid ∧ x.nlink = 0 ∧ x.ref = 1 then
    ifree ip
  releasesleep ip
  setInode ip fun x => { x with ref := x.ref - 1 }

/-- `iunlockput`. -/
def iunlockput (ip : Slot) : FsM Unit := do
  iunlock ip
  iput ip

/-- `iputmount`. -/
def iputmount (ip : Slot) : FsM Int := do
  if 1 < (← gets fun s => (s.inode ip).ref) then
    pure (-1)
  else
    iput ip
    pure 0

/-! ## Contents -/

/-- The part of `bmap` for the first `NDIRECT` blocks, and for the indirect block. -/
def bmapAddr (ip : Slot) (i : Nat) : FsM Nat := do
  let x ← gets fun s => s.inode ip
  if x.addrs i = 0 then
    let addr ← balloc x.dev
    setInode ip fun x => { x with addrs := Function.update x.addrs i addr }
    pure addr
  else
    pure (x.addrs i)

/-- The part of `bmap` for the blocks listed in the indirect block. -/
def bmapIndirect (dev addr i : Nat) : FsM Nat := do
  let bp ← bread dev addr
  let d ← data bp
  if d.getLE (4 * i) 4 = 0 then
    let addr ← balloc dev
    modifyData bp fun d => d.setLE (4 * i) 4 addr
    logWrite bp
    brelse bp
    pure addr
  else
    brelse bp
    pure (d.getLE (4 * i) 4)

/-- `bmap`. -/
def bmap (ip : Slot) (bn : Nat) : FsM Nat := do
  if bn < NDIRECT then
    bmapAddr ip bn
  else if bn - NDIRECT < NINDIRECT then
    let addr ← bmapAddr ip NDIRECT
    let dev ← gets fun s => (s.inode ip).dev
    bmapIndirect dev addr (bn - NDIRECT)
  else
    halt "bmap: out of range"

/-- The devices with entries in `devsw`. -/
def devsw (major : Int) : Bool := major == CONSOLE

/-- `consoleread`, `console.c`. -/
def consoleread (ip : Slot) (n : Int) : FsM (Int × List UInt8) := do
  iunlock ip
  if 0 < n then
    let r ← await
    ilock ip
    match r with
    | none => pure (-1, [])
    | some l => pure ((l.take n.toNat).length, l.take n.toNat)
  else
    ilock ip
    pure (0, [])

/-- `consolewrite`, `console.c`. -/
def consolewrite (ip : Slot) (n : Int) : FsM Int := do
  iunlock ip
  ilock ip
  pure n

/-- The bytes of `d` from `off` on. -/
def bytesAt (d : Block) (off m : Nat) : List UInt8 := (List.range m).map fun i => d.get (off + i)

/-- The loop of `readi`.  `n` is what is left to read, and bounds the rounds. -/
def readLoop (ip : Slot) : Nat → Nat → Nat → FsM (List UInt8)
  | 0, _, _ => pure []
  | k + 1, off, n => do
    if n = 0 then
      pure []
    else
      let addr ← bmap ip (off / BSIZE)
      let dev ← gets fun s => (s.inode ip).dev
      let bp ← bread dev addr
      let m := min n (BSIZE - off % BSIZE)
      let l := bytesAt (← data bp) (off % BSIZE) m
      brelse bp
      let rest ← readLoop ip k (off + m) (n - m)
      pure (l ++ rest)

/-- `readi`. -/
def readi (ip : Slot) (off n : UInt32) : FsM (Int × List UInt8) := do
  let x ← gets fun s => s.inode ip
  if x.type = T_DEV then
    if toShort x.major < 0 ∨ (NDEV : Int) ≤ toShort x.major ∨ !devsw (toShort x.major) then
      pure (-1, [])
    else
      consoleread ip (toInt32 n.toNat)
  else if x.size < off.toNat ∨ off + n < off then
    pure (-1, [])
  else
    let n := if x.size < (off + n).toNat then x.size - off.toNat else n.toNat
    let l ← readLoop ip n off.toNat n
    pure (toInt32 n, l)

/-- The loop of `writei`.  `n` is what is left to write, and bounds the rounds; it
ends with the final value of `off`. -/
def writeLoop (ip : Slot) : Nat → (Nat → UInt8) → Nat → Nat → FsM Nat
  | 0, _, off, _ => pure off
  | k + 1, src, off, n => do
    if n = 0 then
      pure off
    else
      let addr ← bmap ip (off / BSIZE)
      let dev ← gets fun s => (s.inode ip).dev
      let bp ← bread dev addr
      let m := min n (BSIZE - off % BSIZE)
      modifyData bp fun d => d.blit (off % BSIZE) m src
      logWrite bp
      brelse bp
      writeLoop ip k (fun i => src (m + i)) (off + m) (n - m)

/-- The end of `writei`: note that the file has grown. -/
def grow (ip : Slot) (n : UInt32) (off : Nat) : FsM Unit := do
  let size ← gets fun s => (s.inode ip).size
  if 0 < n.toNat ∧ size < off then
    setInode ip fun x => { x with size := off }
    iupdate ip

/-- `writei`. -/
def writei (ip : Slot) (src : Nat → UInt8) (off n : UInt32) : FsM Int := do
  let x ← gets fun s => s.inode ip
  if x.type = T_DEV then
    if toShort x.major < 0 ∨ (NDEV : Int) ≤ toShort x.major ∨ !devsw (toShort x.major) then
      pure (-1)
    else
      consolewrite ip (toInt32 n.toNat)
  else if x.size < off.toNat ∨ off + n < off then
    pure (-1)
  else if MAXFILE * BSIZE < (off + n).toNat then
    pure (-1)
  else
    let off ← writeLoop ip n.toNat src off.toNat n.toNat
    grow ip n off
    pure (toInt32 n.toNat)

end Xv6Rework.Fs
