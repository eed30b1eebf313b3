import Mathlib.Algebra.GroupWithZero.Nat

/-!
# Parameters of the file system

The constants of `kernel/defs/param.h` and `kernel/fs/fs.h`.
-/

namespace Xv6Rework

/-- `ROOTDEV`, `param.h`. -/
def ROOTDEV : Nat := 1
/-- `SECONDARYDEV`, `param.h`. -/
def SECONDARYDEV : Nat := 2
/-- `MAXOPBLOCKS`, `param.h`. -/
def MAXOPBLOCKS : Nat := 10
/-- `LOGSIZE`, `param.h`. -/
def LOGSIZE : Nat := MAXOPBLOCKS * 3
/-- `NBUF`, `param.h`. -/
def NBUF : Nat := MAXOPBLOCKS * 3
/-- `FSSIZE`, `param.h`. -/
def FSSIZE : Nat := 1000
/-- `BSIZE`, `fs.h`. -/
def BSIZE : Nat := 512

/-- `NDIRECT`, `fs.h`. -/
def NDIRECT : Nat := 12
/-- `NINDIRECT`, `fs.h`. -/
def NINDIRECT : Nat := BSIZE / 4
/-- `MAXFILE`, `fs.h`. -/
def MAXFILE : Nat := NDIRECT + NINDIRECT
/-- `IPB`, `fs.h`: a `struct dinode` has 64 bytes. -/
def IPB : Nat := BSIZE / 64
/-- `BPB`, `fs.h`. -/
def BPB : Nat := BSIZE * 8
/-- `DIRSIZ`, `fs.h`. -/
def DIRSIZ : Nat := 14
/-- `sizeof(struct dirent)`. -/
def DIRENTSIZE : Nat := 16
/-- `ROOTINO`, `fs.h`. -/
def ROOTINO : Nat := 1
/-- `NINODE`, `param.h`. -/
def NINODE : Nat := 50
/-- `NFILE`, `param.h`. -/
def NFILE : Nat := 100
/-- `NOFILE`, `param.h`. -/
def NOFILE : Nat := 16
/-- `NDEV`, `param.h`. -/
def NDEV : Nat := 10
/-- `CONSOLE`, `file.h`. -/
def CONSOLE : Nat := 1
/-- `T_DIR`, `stat.h`. -/
def T_DIR : Nat := 1
/-- `T_FILE`, `stat.h`. -/
def T_FILE : Nat := 2
/-- `T_DEV`, `stat.h`. -/
def T_DEV : Nat := 3

end Xv6Rework
