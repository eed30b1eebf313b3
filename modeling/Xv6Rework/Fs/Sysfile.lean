import Xv6Rework.Fs.File
import Xv6Rework.Fs.Mount

/-!
# System calls on files

`kernel/syscall/sysfile.c` and `kernel/exec.c`.  An argument is `none` where
`argstr`, `argint` or `argptr` refuses it.
-/

namespace Xv6Rework.Fs

open Prog

/-! ## Descriptors -/

/-- `argfd`. -/
def argfd (p : PId) (fd : Option Int) : FsM (Option (Fin NOFILE × Fin NFILE)) := do
  match fd with
  | none => pure none
  | some fd =>
    if h : 0 ≤ fd ∧ fd.toNat < NOFILE then
      match (← gets fun s => (s.proc p).ofile ⟨fd.toNat, h.2⟩) with
      | none => pure none
      | some f => pure (some (⟨fd.toNat, h.2⟩, f))
    else
      pure none

/-- Store to `myproc()->ofile[fd]`. -/
def setOfile (p : PId) (fd : Fin NOFILE) (f : Option (Fin NFILE)) : FsM Unit :=
  setProc p fun x => { x with ofile := Function.update x.ofile fd f }

/-- `fdalloc`. -/
def fdalloc (p : PId) (f : Fin NFILE) : FsM (Option (Fin NOFILE)) := do
  match (← gets fun s => (List.finRange NOFILE).find? fun fd => ((s.proc p).ofile fd).isNone) with
  | some fd =>
    setOfile p fd (some f)
    pure (some fd)
  | none => pure none

/-- `sys_dup`. -/
def sysDup (p : PId) (fd : Option Int) : FsM Int := do
  match (← argfd p fd) with
  | none => pure (-1)
  | some (_, f) =>
    match (← fdalloc p f) with
    | none => pure (-1)
    | some fd =>
      filedup f
      pure fd.val

/-- `sys_read`.  `n` is the size that `argptr` accepted the buffer for. -/
def sysRead (p : PId) (fd : Option Int) (n : Option UInt32) : FsM (Int × List UInt8) := do
  match (← argfd p fd), n with
  | some (_, f), some n => fileread f n
  | _, _ => pure (-1, [])

/-- `sys_write`.  `buf` is the buffer and its size, if `argptr` accepted them. -/
def sysWrite (p : PId) (fd : Option Int) (buf : Option ((Nat → UInt8) × Nat)) : FsM Int := do
  match (← argfd p fd), buf with
  | some (_, f), some (src, n) => filewrite f src n
  | _, _ => pure (-1)

/-- `sys_close`. -/
def sysClose (p : PId) (fd : Option Int) : FsM Int := do
  match (← argfd p fd) with
  | none => pure (-1)
  | some (fd, f) =>
    setOfile p fd none
    fileclose f
    pure 0

/-! ## Links -/

/-- `ip->nlink++`, on the 16 bits of a `short`. -/
def incNlink (ip : Slot) : FsM Unit := setInode ip fun x =>
    { x with nlink := (x.nlink + 1) % 2 ^ 16 }

/-- `ip->nlink--`. -/
def decNlink (ip : Slot) : FsM Unit :=
  setInode ip fun x => { x with nlink := (x.nlink + (2 ^ 16 - 1)) % 2 ^ 16 }

/-- The end of `sys_link`, from the label `bad` on. -/
def sysLinkBad (ip : Slot) : FsM Int := do
  ilock ip
  decNlink ip
  iupdate ip
  iunlockput ip
  endOp
  pure (-1)

/-- `dp->dev != ip->dev || dirlink(dp, name, ip->inum) < 0`, negated. -/
def linkInto (dp ip : Slot) (name : List UInt8) : FsM Bool := do
  let x ← gets fun s => s.inode ip
  let y ← gets fun s => s.inode dp
  if y.dev ≠ x.dev then
    pure false
  else
    let r ← dirlink dp name x.inum
    pure (decide (0 ≤ r))

/-- `sys_link` from the second half on. -/
def sysLinkNew (p : PId) (ip : Slot) (new : List UInt8) : FsM Int := do
  match (← nameiparent p 0 new) with
  | none => sysLinkBad ip
  | some (dp, name) =>
    ilock dp
    let linked ← linkInto dp ip name
    iunlockput dp
    if linked then
      iput ip
      endOp
      pure 0
    else
      sysLinkBad ip

/-- `sys_link`. -/
def sysLink (p : PId) (old new : Option (List UInt8)) : FsM Int := do
  match old, new with
  | some old, some new =>
    beginOp
    match (← namei p 0 old) with
    | none =>
      endOp
      pure (-1)
    | some ip =>
      ilock ip
      if (← gets fun s => (s.inode ip).type) = T_DIR then
        iunlockput ip
        endOp
        pure (-1)
      else
        incNlink ip
        iupdate ip
        iunlock ip
        sysLinkNew p ip new
  | _, _ => pure (-1)

/-- The loop of `isdirempty`. -/
def isdiremptyLoop (dp : Slot) : Nat → Nat → FsM Bool
  | 0, _ => stop .hang
  | k + 1, off => do
    if off < (← gets fun s => (s.inode dp).size) then
      let de ← readDirent dp off "isdirempty: readi"
      if de.inum ≠ 0 then
        pure false
      else
        isdiremptyLoop dp k (off + DIRENTSIZE)
    else
      pure true

/-- `isdirempty`. -/
def isdirempty (dp : Slot) : FsM Bool := do
  let size ← gets fun s => (s.inode dp).size
  isdiremptyLoop dp (size / DIRENTSIZE + 2) (2 * DIRENTSIZE)

/-- `ip->type == T_DIR && !isdirempty(ip)`. -/
def isFull (ip : Slot) : FsM Bool := do
  if (← gets fun s => (s.inode ip).type) = T_DIR then
    let r ← isdirempty ip
    pure (!r)
  else
    pure false

/-- Clear the entry at `off`, and count the link of `".."` that goes with it. -/
def unlinkEntry (dp ip : Slot) (off : Nat) : FsM Unit := do
  let r ← writei dp (fun _ => 0) (UInt32.ofNat off) direntSize
  if r ≠ DIRENTSIZE then
    halt "unlink: writei"
  else if (← gets fun s => (s.inode ip).type) = T_DIR then
    decNlink dp
    iupdate dp

/-- The end of `sys_unlink`, from the label `bad` on. -/
def sysUnlinkBad (dp : Slot) : FsM Int := do
  iunlockput dp
  endOp
  pure (-1)

/-- `sys_unlink` from where the entry has been found. -/
def unlinkFound (dp ip : Slot) (off : Nat) : FsM Int := do
  ilock ip
  if toShort (← gets fun s => (s.inode ip).nlink) < 1 then
    halt "unlink: nlink < 1"
  else if (← isFull ip) then
    iunlockput ip
    sysUnlinkBad dp
  else
    unlinkEntry dp ip off
    iunlockput dp
    decNlink ip
    iupdate ip
    iunlockput ip
    endOp
    pure 0

/-- `sys_unlink`. -/
def sysUnlink (p : PId) (path : Option (List UInt8)) : FsM Int := do
  match path with
  | none => pure (-1)
  | some path =>
    beginOp
    match (← nameiparent p 0 path) with
    | none =>
      endOp
      pure (-1)
    | some (dp, name) =>
      ilock dp
      if namecmp (cstr name) (cstr [dot]) = 0 ∨ namecmp (cstr name) (cstr [dot, dot]) = 0 then
        sysUnlinkBad dp
      else
        match (← dirlookup dp name false) with
        | none => sysUnlinkBad dp
        | some (ip, off) => unlinkFound dp ip off

/-! ## Creating and opening -/

/-- The `.` and `..` entries of a new directory. -/
def createDots (dp ip : Slot) : FsM Unit := do
  incNlink dp
  iupdate dp
  if (← dirlink ip [dot] (← gets fun s => (s.inode ip).inum)) < 0 then
    halt "create dots"
  else if (← dirlink ip [dot, dot] (← gets fun s => (s.inode dp).inum)) < 0 then
    halt "create dots"

/-- The end of `create`: the entry for the new inode. -/
def createLink (dp ip : Slot) (name : List UInt8) : FsM (Option Slot) := do
  let r ← dirlink dp name (← gets fun s => (s.inode ip).inum)
  if r < 0 then
    halt "create: dirlink"
  else
    iunlockput dp
    pure (some ip)

/-- `create` where the name is new. -/
def createNew (dp : Slot) (name : List UInt8) (type major minor : Nat) : FsM (Option Slot) := do
  let ip ← ialloc (← gets fun s => (s.inode dp).dev) type
  ilock ip
  setInode ip fun x => { x with major := major, minor := minor, nlink := 1 }
  iupdate ip
  if type = T_DIR then
    createDots dp ip
  createLink dp ip name

/-- `create`.  An inode is returned locked. -/
def create (p : PId) (path : List UInt8) (type major minor : Nat) : FsM (Option Slot) := do
  match (← nameiparent p 0 path) with
  | none => pure none
  | some (dp, name) =>
    ilock dp
    match (← dirlookup dp name true) with
    | some (ip, _) =>
      iunlockput dp
      ilock ip
      if type = T_FILE ∧ (← gets fun s => (s.inode ip).type) = T_FILE then
        pure (some ip)
      else
        iunlockput ip
        pure none
    | none => createNew dp name type major minor

/-- `O_RDONLY`, `xfcntl.h`. -/
def O_RDONLY : BitVec 32 := 0
/-- `O_WRONLY`, `xfcntl.h`. -/
def O_WRONLY : BitVec 32 := 1
/-- `O_RDWR`, `xfcntl.h`. -/
def O_RDWR : BitVec 32 := 2
/-- `O_CREATE`, `xfcntl.h`. -/
def O_CREATE : BitVec 32 := 0x200

/-- The first half of `sys_open`: the inode to open, locked. -/
def openInode (p : PId) (path : List UInt8) (omode : BitVec 32) : FsM (Option Slot) := do
  if omode &&& O_CREATE ≠ 0 then
    create p path T_FILE 0 0
  else
    match (← namei p 0 path) with
    | none => pure none
    | some ip =>
      ilock ip
      if (← gets fun s => (s.inode ip).type) = T_DIR ∧ omode ≠ O_RDONLY then
        iunlockput ip
        pure none
      else
        pure (some ip)

/-- The second half of `sys_open`: `(f = filealloc()) == 0 || (fd = fdalloc(f)) < 0`
and, if so, `fileclose(f)` unless `f` is null. -/
def openFile (p : PId) : FsM (Option (Fin NFILE × Fin NOFILE)) := do
  match (← filealloc) with
  | none => pure none
  | some f =>
    match (← fdalloc p f) with
    | none =>
      fileclose f
      pure none
    | some fd => pure (some (f, fd))

/-- `sys_open`. -/
def sysOpen (p : PId) (path : Option (List UInt8)) (omode : Option (BitVec 32)) : FsM Int := do
  match path, omode with
  | some path, some omode =>
    beginOp
    match (← openInode p path omode) with
    | none =>
      endOp
      pure (-1)
    | some ip =>
      match (← openFile p) with
      | none =>
        iunlockput ip
        endOp
        pure (-1)
      | some (f, fd) =>
        iunlock ip
        endOp
        setFile f fun x => { x with
          type := .FD_INODE
          ip := some ip
          off := 0
          readable := omode &&& O_WRONLY = 0
          writable := omode &&& O_WRONLY ≠ 0 ∨ omode &&& O_RDWR ≠ 0 }
        pure fd.val
  | _, _ => pure (-1)

/-- `create` on arguments that have been fetched. -/
def createArg (p : PId) (type : Nat) (path : Option (List UInt8)) (dev : Option (Nat × Nat)) :
    FsM (Option Slot) :=
  match path, dev with
  | some path, some (major, minor) => create p path type major minor
  | _, _ => pure none

/-- `sys_mkdir` and `sys_mknod`, which differ in the arguments they read and pass to
`create`. -/
def sysCreate (p : PId) (type : Nat) (path : Option (List UInt8)) (dev : Option (Nat × Nat)) :
    FsM Int := do
  beginOp
  match (← createArg p type path dev) with
  | none =>
    endOp
    pure (-1)
  | some ip =>
    iunlockput ip
    endOp
    pure 0

/-- `sys_mkdir`. -/
def sysMkdir (p : PId) (path : Option (List UInt8)) : FsM Int :=
  sysCreate p T_DIR path (some (0, 0))

/-- `sys_mknod`.  The device numbers are cut to a `short` each. -/
def sysMknod (p : PId) (path : Option (List UInt8)) (dev : Option (UInt32 × UInt32)) : FsM Int :=
  sysCreate p T_DEV path (dev.map fun d => (d.1.toNat % 2 ^ 16, d.2.toNat % 2 ^ 16))

/-- `namei` on an argument that has been fetched. -/
def nameiArg (p : PId) (path : Option (List UInt8)) : FsM (Option Slot) :=
  match path with
  | some path => namei p 0 path
  | none => pure none

/-- `sys_chdir`. -/
def sysChdir (p : PId) (path : Option (List UInt8)) : FsM Int := do
  beginOp
  match (← nameiArg p path) with
  | none =>
    endOp
    pure (-1)
  | some ip =>
    ilock ip
    if (← gets fun s => (s.inode ip).type) ≠ T_DIR then
      iunlockput ip
      endOp
      pure (-1)
    else
      iunlock ip
      let old ← cwd p
      iput old
      endOp
      setCwd p (some ip)
      pure 0

end Xv6Rework.Fs
