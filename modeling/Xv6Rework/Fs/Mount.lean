import Xv6Rework.Fs.Dir

/-!
# Mounting

`kernel/fs/mount.c`, with the lock of `kernel/lock/nonblockinglock.c` that only one
file system is mounted under.
-/

namespace Xv6Rework.Fs

open Prog

/-! ## Error codes -/

/-- `ENOMOUNT`, `mount.h`. -/
def ENOMOUNT : Int := 2
/-- `EMOUNTNTDIR`, `mount.h`. -/
def EMOUNTNTDIR : Int := 3
/-- `EMNTPNTNOTFOUND`, `mount.h`. -/
def EMNTPNTNOTFOUND : Int := 4
/-- `EMOUNTPNTLOCKED`, `mount.h`. -/
def EMOUNTPNTLOCKED : Int := 5
/-- `EMOUNTPOINTBUSY`, `mount.h`. -/
def EMOUNTPOINTBUSY : Int := 6
/-- `ECANNOTMOUNTONROOT`, `mount.h`. -/
def ECANNOTMOUNTONROOT : Int := 7
/-- `EMOUNTROOTNOTFOUND`, `mount.h`. -/
def EMOUNTROOTNOTFOUND : Int := 8
/-- `ENODEV`, `mount.h`. -/
def ENODEV : Int := 9
/-- `EDEVOOR`, `mount.h`. -/
def EDEVOOR : Int := 10
/-- `ECANNOTMOUNTONMAIN`, `mount.h`. -/
def ECANNOTMOUNTONMAIN : Int := 11

/-! ## The lock -/

/-- `acquirenonblockinglock(&mountlock)`. -/
def acquirenonblockinglock : FsM Bool := do
  if (← gets fun s => s.mountlock) then
    pure false
  else
    update fun s => { s with mountlock := true }
    pure true

/-- `releasenonblocking(&mountlock)`. -/
def releasenonblocking : FsM Unit := update fun s => { s with mountlock := false }

/-! ## The system calls -/

/-- `diskmask & DEVn`: `DEV1` is bit 0. -/
def diskPresent (s : Fs) (dev : Nat) : Bool := s.diskPresence.getLsbD (dev - 1)

/-- The `switch` of `mount`: the result it returns at once with, if any. -/
def mountCheck (s : Fs) (dev : Nat) : Option Int :=
  if dev = 1 then
    some (-ECANNOTMOUNTONMAIN)
  else if 2 ≤ dev ∧ dev ≤ 7 then
    if s.diskPresent dev then none else some (-ENODEV)
  else if 7 < dev then
    some (-EDEVOOR)
  else
    some (-ENODEV)

/-- The end of `mount`, from the label `fixed` on. -/
def mountOn (p : PId) (dev : Nat) (mountpoint : Slot) : FsM Int := do
  if (← gets fun s => (s.inode mountpoint).inum) = ROOTINO then
    iput mountpoint
    endOp
    releasenonblocking
    pure (-ECANNOTMOUNTONROOT)
  else
    match (← namei p dev [slash]) with
    | none =>
      releasenonblocking
      endOp
      pure (-EMOUNTROOTNOTFOUND)
    | some mountroot =>
      setInode mountpoint fun x => { x with isMountPoint := true }
      update fun s => { s with mountPoint := some mountpoint, mountRoot := some mountroot }
      endOp
      pure 0

/-- The return of `mount` on a path that is no directory. -/
def mountNotDir : FsM Int := do
  endOp
  releasenonblocking
  pure (-EMOUNTNTDIR)

/-- The detour of `mount` for an inode whose type does not read as a directory: look
up `"."` from it. -/
def mountDetour (p : PId) (dev : Nat) (mountpoint : Slot) : FsM Int := do
  let oldCwd ← gets fun s => (s.proc p).cwd
  let ip ← idup mountpoint
  setCwd p (some ip)
  let dev' ← gets fun s => (s.inode mountpoint).dev
  match (← namei p dev' [dot]) with
  | some dirCheck =>
    if (← gets fun s => (s.inode dirCheck).type) = T_DIR then
      let mountpoint ← idup dirCheck
      iput dirCheck
      setCwd p oldCwd
      mountOn p dev mountpoint
    else
      setCwd p oldCwd
      iput dirCheck
      mountNotDir
  | none =>
    setCwd p oldCwd
    mountNotDir

/-- `mount` from the lock on. -/
def mountPath (p : PId) (dev : Nat) (path : List UInt8) : FsM Int := do
  if !(← acquirenonblockinglock) then
    endOp
    pure (-EMOUNTPNTLOCKED)
  else
    match (← namei p 1 path) with
    | none =>
      endOp
      releasenonblocking
      pure (-EMNTPNTNOTFOUND)
    | some mountpoint =>
      if (← gets fun s => (s.inode mountpoint).type) ≠ T_DIR then
        mountDetour p dev mountpoint
      else
        mountOn p dev mountpoint

/-- `mount`. -/
def mount (p : PId) (dev : Nat) (path : List UInt8) : FsM Int := do
  beginOp
  match (← gets fun s => s.mountCheck dev) with
  | some r => pure r
  | none => mountPath p dev path

/-- `unmount` from where the path has been found. -/
def unmountFound (mp : Slot) : FsM Int := do
  if (← gets fun s => s.mountRoot) ≠ some mp then
    pure (-ENOMOUNT)
  else if (← acquirenonblockinglock) then
    releasenonblocking
    pure (-ENOMOUNT)
  else
    iput mp
    let mountRoot ← deref (← gets fun s => s.mountRoot)
    let r ← iputmount mountRoot
    if r ≠ 0 then
      pure (-EMOUNTPOINTBUSY)
    else
      let mountPoint ← deref (← gets fun s => s.mountPoint)
      setInode mountPoint fun x => { x with isMountPoint := false }
      update fun s => { s with mountPoint := none, mountRoot := none }
      releasenonblocking
      pure 0

/-- `unmount`. -/
def unmount (p : PId) (mountpoint : List UInt8) : FsM Int := do
  beginOp
  match (← namei p 1 mountpoint) with
  | none =>
    endOp
    pure (-ENOMOUNT)
  | some mp => unmountFound mp

end Xv6Rework.Fs
