import Xv6Rework.Fs.Process
import Xv6Rework.Fs.Devices

/-!
# A new file system

The image that `user/mkfs.c` writes when it is given no files, and the machine that
starts with such an image on both of its disks.
-/

namespace Xv6Rework

/-! ## The image -/

/-- `NINODES`, `mkfs.c`. -/
def NINODES : Nat := 200

/-- `nbitmap`. -/
def nbitmap : Nat := FSSIZE / (BSIZE * 8) + 1

/-- `ninodeblocks`. -/
def ninodeblocks : Nat := NINODES / IPB + 1

/-- `nlog`. -/
def nlog : Nat := LOGSIZE

/-- `nmeta`. -/
def nmeta : Nat := 2 + nlog + ninodeblocks + nbitmap

/-- The super block that `mkfs` writes. -/
def mkfsSb : Superblock where
  size := FSSIZE
  nblocks := FSSIZE - nmeta
  ninodes := NINODES
  nlog := nlog
  logstart := 2
  inodestart := 2 + nlog
  bmapstart := 2 + nlog + ninodeblocks

/-- A super block as it is written. -/
def Superblock.store (sb : Superblock) : Block :=
  Bytes.zero.setArray 0 7 fun i =>
    [sb.size, sb.nblocks, sb.ninodes, sb.nlog, sb.logstart, sb.inodestart, sb.bmapstart].getD i 0

/-- The inode of the root: `iappend` has given it the first data block, and its size has
been rounded up. -/
def mkfsRoot : Dinode := ⟨T_DIR, 0, 0, 1, BSIZE, fun i => if i = 0 then nmeta else 0⟩

/-- The blocks of the image. -/
def mkfs (b : Nat) : Block :=
  if b = 1 then
    mkfsSb.store
  else if b = Fs.IBLOCK ROOTINO mkfsSb then
    mkfsRoot.store (ROOTINO % IPB) Bytes.zero
  else if b = mkfsSb.bmapstart then
    (List.range (nmeta + 1)).foldl setBit Bytes.zero
  else if b = nmeta then
    (Bytes.zero.blit 0 DIRENTSIZE (cstr (direntBytes ROOTINO (cstr [dot])))).blit
      DIRENTSIZE DIRENTSIZE (cstr (direntBytes ROOTINO (cstr [dot, dot])))
  else
    Bytes.zero

/-! ## The machine -/

namespace Fs

/-- The first process. -/
def init : PId := ⟨0, nproc_pos⟩

/-- The machine with this image on both disks, when its first process starts. -/
def booted : Fs :=
  (userinit (zeroed (startUp (binit fun k => mkfs k.2)).2 mkfsSb mkfsSb 3 init)).2

end Fs

end Xv6Rework
