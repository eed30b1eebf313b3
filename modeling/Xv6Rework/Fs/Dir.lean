import Xv6Rework.Fs.Inode

/-!
# Directories and paths

The rest of `kernel/fs/fs.c`: directory entries, and the resolution of path names,
which crosses from one file system to the other at a mount point.
-/

namespace Xv6Rework.Fs

open Prog

/-! ## Directories -/

/-- `sizeof(struct dirent)`, as it is passed. -/
def direntSize : UInt32 := 16

/-- `readi(dp, (char *) &de, off, sizeof(de))`, where anything but a whole entry is
a panic. -/
def readDirent (dp : Slot) (off : Nat) (msg : String) : FsM Dirent := do
  let (r, l) ← readi dp (UInt32.ofNat off) direntSize
  if r ≠ DIRENTSIZE then
    halt msg
  else
    pure (Dirent.ofBytes l)

/-- The loop of `dirlookup`. -/
def dirlookupLoop (dp : Slot) (name : List UInt8) : Nat → Nat → FsM (Option (Nat × Nat))
  | 0, _ => stop .hang
  | k + 1, off => do
    if off < (← gets fun s => (s.inode dp).size) then
      let de ← readDirent dp off "dirlookup read"
      if de.inum = 0 then
        dirlookupLoop dp name k (off + DIRENTSIZE)
      else if namecmp (cstr name) de.name = 0 then
        pure (some (de.inum, off))
      else
        dirlookupLoop dp name k (off + DIRENTSIZE)
    else
      pure none

/-- The directory that is meant by a directory: the root of the other file system,
if that is mounted on it. -/
def mounted (dp : Slot) : FsM Slot := do
  if (← gets fun s => (s.inode dp).isMountPoint) then
    deref (← gets fun s => s.mountRoot)
  else
    pure dp

/-- `dirlookup` from the test of the type on. -/
def dirscan (dp : Slot) (name : List UInt8) : FsM (Option (Slot × Nat)) := do
  let x ← gets fun s => s.inode dp
  if x.type ≠ T_DIR then
    halt "dirlookup not DIR"
  else
    match (← dirlookupLoop dp name (x.size / DIRENTSIZE + 2) 0) with
    | none => pure none
    | some (inum, off) =>
      let ip ← iget x.dev inum
      pure (some (ip, off))

/-- `dirlookup`.  It returns the inode together with what it stores to `*poff`. -/
def dirlookup (dp : Slot) (name : List UInt8) (leavingMount : Bool) :
    FsM (Option (Slot × Nat)) := do
  if leavingMount then
    dirscan dp name
  else
    let dp ← mounted dp
    dirscan dp name

/-- The second loop of `dirlink`: the offset of the first free entry, or the end. -/
def dirlinkLoop (dp : Slot) : Nat → Nat → FsM Nat
  | 0, _ => stop .hang
  | k + 1, off => do
    if off < (← gets fun s => (s.inode dp).size) then
      let de ← readDirent dp off "dirlink read"
      if de.inum = 0 then
        pure off
      else
        dirlinkLoop dp k (off + DIRENTSIZE)
    else
      pure off

/-- The end of `dirlink`: write the entry. -/
def direntWrite (dp : Slot) (name : List UInt8) (inum off : Nat) : FsM Int := do
  setInode dp fun x => { x with type := T_DIR }
  let r ← writei dp (cstr (direntBytes inum (cstr name))) (UInt32.ofNat off) direntSize
  if r ≠ DIRENTSIZE then
    halt "dirlink"
  else
    iupdate dp
    pure 0

/-- `dirlink`. -/
def dirlink (dp : Slot) (name : List UInt8) (inum : Nat) : FsM Int := do
  let dp ← mounted dp
  match (← dirlookup dp name false) with
  | some (ip, _) =>
    iput ip
    pure (-1)
  | none =>
    let size ← gets fun s => (s.inode dp).size
    let off ← dirlinkLoop dp (size / DIRENTSIZE + 2) 0
    direntWrite dp name inum off

/-! ## Paths -/

/-- The step of `namex` from a mount point to the root of what is mounted there.  The
reference to the mount point is not put. -/
def crossMount (nameiparent : Bool) (next : Slot) : FsM Slot := do
  if !nameiparent && (← gets fun s => (s.inode next).isMountPoint) then
    let mountRoot ← gets fun s => s.mountRoot
    let mountRoot ← deref mountRoot
    record .crossMount
    idup mountRoot
  else
    pure next

/-- The loop of `namex`.  Each round shortens the path, so its length bounds the
rounds. -/
def namexLoop (nameiparent : Bool) : Nat → Slot → List UInt8 → FsM (Option (Slot × List UInt8))
  | 0, _, _ => stop .hang
  | k + 1, ip, path => do
    match skipelem path with
    | none =>
      if nameiparent then
        iput ip
        pure none
      else
        pure (some (ip, []))
    | some (name, path) =>
      ilock ip
      if (← gets fun s => (s.inode ip).type) ≠ T_DIR then
        iunlockput ip
        pure none
      else if nameiparent ∧ path = [] then
        iunlock ip
        pure (some (ip, name))
      else
        match (← dirlookup ip name true) with
        | none =>
          iunlockput ip
          pure none
        | some (next, _) =>
          let next ← crossMount nameiparent next
          iunlockput ip
          namexLoop nameiparent k next path

/-- Where `namex` starts. -/
def namexStart (p : PId) (dev : Nat) (path : List UInt8) : FsM Slot := do
  if path.head? = some slash then
    iget dev ROOTINO
  else
    let ip ← cwd p
    idup ip

/-- `namex`.  Beside the inode it returns what it leaves in `name`. -/
def namex (p : PId) (dev : Nat) (path : List UInt8) (nameiparent : Bool) :
    FsM (Option (Slot × List UInt8)) := do
  let ip ← namexStart p dev path
  namexLoop nameiparent (path.length + 1) ip path

/-- The path `"../.."`. -/
def dotdotPath : List UInt8 := [dot, dot, slash, dot, dot]

/-- `nameiparent`. -/
def nameiparent (p : PId) (dev : Nat) (path : List UInt8) : FsM (Option (Slot × List UInt8)) :=
  namex p dev path true

/-- Store to `myproc()->cwd`. -/
def setCwd (p : PId) (ip : Option Slot) : FsM Unit := setProc p fun x => { x with cwd := ip }

/-- The branch of `namei` for a path that leaves a mounted file system through its
root. -/
def leaveMount (p : PId) : FsM (Option Slot) := do
  let oldCwd ← cwd p
  let mountPoint ← gets fun s => s.mountPoint
  setCwd p mountPoint
  iput oldCwd
  let r ← namex p 1 dotdotPath true
  setCwd p (r.map Prod.fst)
  iput oldCwd
  pure (r.map Prod.fst)

/-- The condition under which `namei` takes that branch. -/
def leavesMount (s : Fs) (p : PId) (dev : Nat) (path : List UInt8) : Bool :=
  1 < dev && path.getD 0 0 == dot && path.getD 1 0 == dot &&
    match (s.proc p).cwd with
    | some ip => (s.inode ip).inum == ROOTINO
    | none => false

/-- The device `namei` looks on: that of the working directory, if it is called
with 0. -/
def nameiDev (p : PId) (dev : Nat) : FsM Nat := do
  if dev = 0 then
    let ip ← cwd p
    gets fun s => (s.inode ip).dev
  else
    pure dev

/-- `namei`. -/
def namei (p : PId) (dev : Nat) (path : List UInt8) : FsM (Option Slot) := do
  let dev ← nameiDev p dev
  if (← gets fun s => s.leavesMount p dev path) then
    leaveMount p
  else
    let r ← namex p dev path false
    pure (r.map Prod.fst)

end Xv6Rework.Fs
