import Xv6Rework.Fs.Mkfs
import Xv6Rework.Fs.Volume

/-!
# `mkfs`

`user/mkfs.c`, which runs on the host and writes a file system with the files it is given.
The image is a host file of whole sectors; reading a sector past its end fails.

An input file is the name it has on the command line and what the calls of `read` return
until they return 0: one to `BSIZE` bytes each time, however the host divides them up.
The counters stay far below 2³² and are natural numbers.
-/

namespace Xv6Rework

open Prog
open Fs (IBLOCK)

/-- The image and the counters. -/
structure Mkfs where
  image : Nat → Block
  sectors : Nat
  freeinode : Nat
  freeblock : Nat

/-- Code of `mkfs`. -/
abbrev MkfsM := Prog Mkfs

/-- An input file. -/
structure Input where
  name : List UInt8
  reads : List (List UInt8)
  name_ne : ∀ c ∈ name, c ≠ 0
  reads_ne : ∀ r ∈ reads, r ≠ []
  reads_le : ∀ r ∈ reads, r.length ≤ BSIZE

/-- `'_'`. -/
def underscore : UInt8 := 95

namespace Input

/-- What the file contains. -/
def bytes (f : Input) : List UInt8 := f.reads.flatten

/-- `argv[i]` without the leading `'_'`. -/
def bare (f : Input) : List UInt8 :=
  if f.name.head? = some underscore then f.name.tail else f.name

/-- The name as it is stored. -/
def stored (f : Input) : List UInt8 := f.bare.take DIRSIZ

end Input

namespace Mkfs

/-- The host file is created, or truncated. -/
def start : Mkfs := ⟨fun _ => Bytes.zero, 0, 1, 0⟩

/-! ## Sectors and inodes -/

/-- `wsect`. -/
def wsect (sec : Nat) (buf : Block) : MkfsM Unit :=
  update fun m => { m with
    image := Function.update m.image sec buf
    sectors := max m.sectors (sec + 1) }

/-- `rsect`. -/
def rsect (sec : Nat) : MkfsM Block := do
  if sec < (← gets Mkfs.sectors) then
    gets fun m => m.image sec
  else
    halt "read"

/-- `winode`. -/
def winode (inum : Nat) (ip : Dinode) : MkfsM Unit := do
  let buf ← rsect (IBLOCK inum mkfsSb)
  wsect (IBLOCK inum mkfsSb) (ip.store (inum % IPB) buf)

/-- `rinode`. -/
def rinode (inum : Nat) : MkfsM Dinode := do
  let buf ← rsect (IBLOCK inum mkfsSb)
  pure (Dinode.ofBlock buf (inum % IPB))

/-- `ialloc`. -/
def ialloc (type : Nat) : MkfsM Nat := do
  let inum ← gets Mkfs.freeinode
  update fun m => { m with freeinode := inum + 1 }
  winode inum { Dinode.zero with type := type, nlink := 1 }
  pure inum

/-- The map that `balloc` writes: the first blocks are in use. -/
def bits (used : Nat) : Block := (List.range used).foldl setBit Bytes.zero

/-- `balloc`. -/
def balloc (used : Nat) : MkfsM Unit := do
  if used < BSIZE * 8 then
    wsect mkfsSb.bmapstart (bits used)
  else
    halt "assert(used < BSIZE*8)"

/-! ## Contents -/

/-- `freeblock++`. -/
def nextBlock : MkfsM Nat := do
  let b ← gets Mkfs.freeblock
  update fun m => { m with freeblock := b + 1 }
  pure b

/-- A pointer of the inode that `iappend` has in memory, which gets a block if it is
null. -/
def appendAddr (din : Dinode) (q : Nat) : MkfsM Dinode := do
  if din.addrs q = 0 then
    let b ← nextBlock
    pure (din.setAddr q b)
  else
    pure din

/-- An entry of the indirect block, which gets a block if it is null. -/
def appendIndirect (din : Dinode) (j : Nat) : MkfsM (Dinode × Nat) := do
  let indirect ← rsect (din.addrs NDIRECT)
  if indirect.getLE (4 * j) 4 = 0 then
    let b ← nextBlock
    wsect (din.addrs NDIRECT) (indirect.setLE (4 * j) 4 b)
    pure (din, b)
  else
    pure (din, indirect.getLE (4 * j) 4)

/-- The first part of a round of `iappend`: the inode, and the sector `x` of its `fbn`-th
block. -/
def appendBlock (din : Dinode) (fbn : Nat) : MkfsM (Dinode × Nat) := do
  if fbn < NDIRECT then
    let din ← appendAddr din fbn
    pure (din, din.addrs fbn)
  else
    let din ← appendAddr din NDIRECT
    appendIndirect din (fbn - NDIRECT)

/-- The loop of `iappend`.  `n` is what is left of `p`, and bounds the rounds. -/
def appendLoop : Nat → Dinode → (Nat → UInt8) → Nat → Nat → MkfsM (Dinode × Nat)
  | 0, din, _, off, _ => pure (din, off)
  | k + 1, din, p, off, n => do
    if n = 0 then
      pure (din, off)
    else if MAXFILE ≤ off / BSIZE then
      halt "assert(fbn < MAXFILE)"
    else
      let (din, x) ← appendBlock din (off / BSIZE)
      let n1 := min n ((off / BSIZE + 1) * BSIZE - off)
      let buf ← rsect x
      wsect x (buf.blit (off - off / BSIZE * BSIZE) n1 p)
      appendLoop k din (fun i => p (n1 + i)) (off + n1) (n - n1)

/-- `iappend`. -/
def iappend (inum : Nat) (xp : List UInt8) : MkfsM Unit := do
  let din ← rinode inum
  let (din, off) ← appendLoop xp.length din (cstr xp) din.size xp.length
  winode inum { din with size := off }

/-! ## The program -/

/-- The first part of `main`: sectors of zeros, and the super block. -/
def format : MkfsM Unit := do
  update fun m => { m with freeblock := nmeta }
  (List.range FSSIZE).forM fun i => wsect i Bytes.zero
  wsect 1 mkfsSb.store

/-- The root directory, with its first two entries. -/
def makeRoot : MkfsM Nat := do
  let rootino ← ialloc T_DIR
  if rootino = ROOTINO then
    iappend rootino (direntBytes rootino (cstr [dot]))
    iappend rootino (direntBytes rootino (cstr [dot, dot]))
    pure rootino
  else
    halt "assert(rootino == ROOTINO)"

/-- A round of the loop over the arguments. -/
def addFile (rootino : Nat) (f : Input) : MkfsM Unit := do
  if slash ∈ f.name then
    halt "assert(index(argv[i], '/') == 0)"
  else
    let inum ← ialloc T_FILE
    iappend rootino (direntBytes inum (cstr f.bare))
    f.reads.forM (iappend inum)

/-- The size of the root is rounded up. -/
def fixSize (rootino : Nat) : MkfsM Unit := do
  let din ← rinode rootino
  winode rootino { din with size := (din.size / BSIZE + 1) * BSIZE }

/-- `main` from the root directory on. -/
def fill (files : List Input) : MkfsM Unit := do
  let rootino ← makeRoot
  files.forM (addFile rootino)
  fixSize rootino
  balloc (← gets Mkfs.freeblock)

/-- `main`, once the host file is open. -/
def main (files : List Input) : MkfsM Unit := do
  format
  fill files

/-- The image that a run leaves, if it gets to the end. -/
def imageOf : Except Stop Unit × Mkfs → Option (Nat → Block)
  | (.ok _, m) => some m.image
  | (.error _, _) => none

/-- The image that `mkfs` writes. -/
def output (files : List Input) : Option (Nat → Block) := imageOf (main files start)

/-- What `format` leaves. -/
def formatted : Mkfs := ⟨Function.update (fun _ => Bytes.zero) 1 mkfsSb.store, FSSIZE, 1, nmeta⟩

theorem forM_wsect_zero (n : Nat) :
    (List.range n).forM (fun i => wsect i Bytes.zero) ⟨fun _ => Bytes.zero, 0, 1, nmeta⟩ =
      (.ok (), ⟨fun _ => Bytes.zero, n, 1, nmeta⟩) := by
  have hrun : wp ((List.range n).forM fun i => wsect i Bytes.zero)
      (fun _ m => m = ⟨fun _ => Bytes.zero, n, 1, nmeta⟩) (fun _ _ => False)
      ⟨fun _ => Bytes.zero, 0, 1, nmeta⟩ := by
    refine wp_forM_range (fun i m => m = ⟨fun _ => Bytes.zero, i, 1, nmeta⟩) rfl ?_ fun _ => id
    rintro i - _ rfl
    simp only [wsect, wp_update, Mkfs.mk.injEq, Function.update_eq_self_iff, and_self,
      and_true, true_and]
    exact max_eq_right (Nat.le_succ i)
  obtain ⟨_, _, hm, rfl⟩ := hrun.exists_ok
  exact hm

theorem format_start : format start = (.ok (), formatted) := by
  have hmeta : update (fun m : Mkfs => { m with freeblock := nmeta }) start =
      (.ok (), ⟨fun _ => Bytes.zero, 0, 1, nmeta⟩) := rfl
  rw [format, bind_of_ok hmeta, bind_of_ok (forM_wsect_zero FSSIZE)]
  rfl

end Mkfs

end Xv6Rework
