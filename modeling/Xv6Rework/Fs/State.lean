import Xv6Rework.Fs.Log
import Xv6Rework.Fs.Layout
import Xv6Rework.Sched.State

/-!
# The state of the file system

What `fs.c`, `file.c`, `mount.c` and `sysfile.c` keep in memory, over the block
layer: the two inode caches, the mount table, the open file table, and of the
process table the fields that refer to files.

As in the block layer, a function runs from its call to its return with no other
process in between.  Spin locks are left out; an inode's sleep lock stays, and
asking for one that is taken waits forever.  A read or write through a null pointer
is a page fault in the kernel, which `trap` answers with a panic.

The state also has a record of some of what the functions do (`trace`).  It is there
for the statements only: no function reads it.
-/

namespace Xv6Rework

open Prog

/-- An entry of an inode cache.  The first component is true for `icache2`, which is
used for device 2, and false for `icache`, which is used for every other device. -/
abbrev Slot := Bool × Fin NINODE

/-- `struct inode`: the copy of what is on disk, and what is not. -/
structure Inode extends Dinode where
  dev : Nat
  inum : Nat
  ref : Int
  locked : Bool
  valid : Bool
  isMountPoint : Bool

/-- The types of an open file. -/
inductive FileType where
  | FD_NONE
  | FD_PIPE
  | FD_INODE
  | FD_FIFO
deriving DecidableEq, Repr

/-- `struct file`.  A pipe is not looked into. -/
structure File where
  type : FileType
  ref : Int
  readable : Bool
  writable : Bool
  ip : Option Slot
  off : UInt32

/-- The fields of `struct proc` that `fork`, `exit`, `wait` and the file system
share. -/
structure FsProc where
  state : ProcState
  parent : Option PId
  cwd : Option Slot
  ofile : Fin NOFILE → Option (Fin NFILE)

/-- What the record notes: the calls that open, close or use a transaction, `iput`
with its inode and the reference count it finds, and `namex` going on from a mount
point to the root of what is mounted there. -/
inductive Event where
  | beginOp
  | endOp
  | logWrite
  | iput (ip : Slot) (ref : Int)
  | crossMount
deriving DecidableEq, Repr

/-- The tables that the functions on blocks and inodes only read, or do not use.
`io` is what comes from outside: what the next uses of the console and of pipes will
get, `none` where they fail. -/
structure Tables where
  sb : Superblock
  sb2 : Superblock
  mountPoint : Option Slot
  mountRoot : Option Slot
  mountlock : Bool
  diskPresence : BitVec 8
  file : Fin NFILE → File
  proc : PId → FsProc
  initproc : PId
  io : List (Option (List UInt8))

/-- Store to an open file. -/
def Tables.setFile (t : Tables) (f : Fin NFILE) (x : File) : Tables :=
  { t with file := Function.update t.file f x }

/-- Store to a process. -/
def Tables.setProc (t : Tables) (p : PId) (x : FsProc) : Tables :=
  { t with proc := Function.update t.proc p x }

/-- The file system. -/
structure Fs extends Tables where
  store : Store
  inode : Slot → Inode
  trace : List Event

/-- Code that runs on the file system's state. -/
abbrev FsM := Prog Fs

namespace Fs

/-! ## Access to the state -/

/-- Run code of the block layer. -/
def lift {α : Type} (x : StoreM α) : FsM α := fun s =>
  ((x s.store).1, { s with store := (x s.store).2 })

/-- Note a call in the record. -/
def record (e : Event) : FsM Unit := update fun s => { s with trace := s.trace ++ [e] }

/-- Change an inode. -/
def setInode (ip : Slot) (f : Inode → Inode) : FsM Unit :=
  update fun s => { s with inode := Function.update s.inode ip (f (s.inode ip)) }

/-- Change an open file. -/
def setFile (f : Fin NFILE) (g : File → File) : FsM Unit :=
  update fun s => { s with toTables := s.toTables.setFile f (g (s.file f)) }

/-- Change a process. -/
def setProc (p : PId) (g : FsProc → FsProc) : FsM Unit :=
  update fun s => { s with toTables := s.toTables.setProc p (g (s.proc p)) }

/-- Follow a pointer that may be null. -/
def deref {α : Type} : Option α → FsM α
  | some a => pure a
  | none => halt "trap"

/-- `myproc()->cwd`, where it is followed. -/
def cwd (p : PId) : FsM Slot := do
  deref (← gets fun s => (s.proc p).cwd)

/-- Wait for what comes from outside. -/
def await : FsM (Option (List UInt8)) := do
  match (← gets fun s => s.io) with
  | [] => stop .hang
  | r :: io =>
    update fun s => { s with io := io }
    pure r

/-- The super block of a device. -/
def superblock (s : Fs) (dev : Nat) : Superblock := if dev = 2 then s.sb2 else s.sb

/-! ## The block layer -/

/-- `bread`. -/
def bread (dev blockno : Nat) : FsM (Fin NBUF) := lift (Xv6Rework.bread dev blockno)

/-- `brelse`. -/
def brelse (bp : Fin NBUF) : FsM Unit := lift (Xv6Rework.brelse bp)

/-- `bp->data`. -/
def data (bp : Fin NBUF) : FsM Block := gets fun s => (s.store.buf bp).data

/-- A change of `bp->data`. -/
def modifyData (bp : Fin NBUF) (f : Block → Block) : FsM Unit :=
  lift (update fun s => s.setData bp (f (s.buf bp).data))

/-- `log_write`. -/
def logWrite (bp : Fin NBUF) : FsM Unit := do
  record .logWrite
  lift (Xv6Rework.logWrite bp)

/-- `begin_op`. -/
def beginOp : FsM Unit := do
  lift Xv6Rework.beginOp
  record .beginOp

/-- `end_op`. -/
def endOp : FsM Unit := do
  record .endOp
  lift Xv6Rework.endOp

end Fs

end Xv6Rework
