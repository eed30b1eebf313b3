import Xv6Rework.Fs.Sysfile

/-!
# Processes and the file system

`exec` of `kernel/exec.c`, and of `kernel/sched/proc.c` what `userinit`, `fork`,
`exit` and `wait` do to the working directories and open files of processes.

Memory is outside: whether the memory functions find what they need is a parameter
(`Vm`), and what they do leaves the file system alone.
-/

namespace Xv6Rework.Fs

open Prog

/-! ## Loading a program -/

/-- `PGSIZE`, `mmu.h`. -/
def PGSIZE : Nat := 4096
/-- `MAXARG`, `param.h`. -/
def MAXARG : Nat := 32
/-- `ELF_MAGIC`, `elf.h`. -/
def ELF_MAGIC : UInt32 := 0x464C457F
/-- `ELF_PROG_LOAD`, `elf.h`. -/
def ELF_PROG_LOAD : UInt32 := 1

/-- What the memory functions answer: whether `setupkvm` and the `n`-th `copyout`
succeed, what `allocuvm` returns for the old and the new size, and whether `walkpgdir`
finds a page. -/
structure Vm where
  setupkvm : Bool
  allocuvm : Nat → Nat → Nat
  walkpgdir : Nat → Bool
  copyout : Nat → Bool

/-- A little-endian number in a run of bytes. -/
def leAt (l : List UInt8) (off : Nat) : Nat → Nat
  | 0 => 0
  | k + 1 => (l.getD off 0).toNat + 256 * leAt l (off + 1) k

/-- The fields of `struct elfhdr` that `exec` reads. -/
structure Elfhdr where
  magic : UInt32
  phoff : UInt32
  phnum : Nat

/-- An ELF header from its bytes. -/
def Elfhdr.ofBytes (l : List UInt8) : Elfhdr where
  magic := UInt32.ofNat (leAt l 0 4)
  phoff := UInt32.ofNat (leAt l 28 4)
  phnum := leAt l 44 2

/-- The fields of `struct proghdr` that `exec` reads. -/
structure Proghdr where
  type : UInt32
  off : UInt32
  vaddr : UInt32
  filesz : UInt32
  memsz : UInt32

/-- A program header from its bytes. -/
def Proghdr.ofBytes (l : List UInt8) : Proghdr where
  type := UInt32.ofNat (leAt l 0 4)
  off := UInt32.ofNat (leAt l 4 4)
  vaddr := UInt32.ofNat (leAt l 8 4)
  filesz := UInt32.ofNat (leAt l 16 4)
  memsz := UInt32.ofNat (leAt l 20 4)

/-- The loop of `loaduvm`, `vm.c`. -/
def loaduvmLoop (vm : Vm) (ip : Slot) (ph : Proghdr) : Nat → Nat → FsM Bool
  | 0, _ => stop .hang
  | k + 1, i => do
    if i < ph.filesz.toNat then
      if !vm.walkpgdir (ph.vaddr.toNat + i) then
        halt "loaduvm: address should exist"
      let n := min (ph.filesz.toNat - i) PGSIZE
      let (r, _) ← readi ip (ph.off + UInt32.ofNat i) (UInt32.ofNat n)
      if r ≠ n then
        pure false
      else
        loaduvmLoop vm ip ph k (i + PGSIZE)
    else
      pure true

/-- `loaduvm`.  Its test of the address comes after the same test in `exec`. -/
def loaduvm (vm : Vm) (ip : Slot) (ph : Proghdr) : FsM Bool :=
  loaduvmLoop vm ip ph (ph.filesz.toNat / PGSIZE + 2) 0

/-- The loop of `exec` over the program headers. -/
def execLoad (vm : Vm) (ip : Slot) : Nat → UInt32 → Nat → FsM (Option Nat)
  | 0, _, sz => pure (some sz)
  | k + 1, off, sz => do
    let (r, l) ← readi ip off 32
    let ph := Proghdr.ofBytes l
    if r ≠ 32 then
      pure none
    else if ph.type ≠ ELF_PROG_LOAD then
      execLoad vm ip k (off + 32) sz
    else if ph.memsz < ph.filesz then
      pure none
    else if ph.vaddr + ph.memsz < ph.vaddr then
      pure none
    else
      let sz := vm.allocuvm sz (ph.vaddr + ph.memsz).toNat
      if sz = 0 then
        pure none
      else if ph.vaddr.toNat % PGSIZE ≠ 0 then
        pure none
      else if !(← loaduvm vm ip ph) then
        pure none
      else
        execLoad vm ip k (off + 32) sz

/-- `exec` from `ilock` to `end_op`: the size of the loaded program. -/
def execImage (vm : Vm) (ip : Slot) : FsM (Option Nat) := do
  let (r, l) ← readi ip 0 52
  let elf := Elfhdr.ofBytes l
  if r ≠ 52 then
    pure none
  else if elf.magic ≠ ELF_MAGIC then
    halt "bad elf magic"
  else if !vm.setupkvm then
    pure none
  else
    execLoad vm ip elf.phnum elf.phoff 0

/-- The rest of `exec`, after the file system has been left: whether the stack and the
arguments find room. -/
def execStack (vm : Vm) (sz argc : Nat) : Bool :=
  let sz := (sz + PGSIZE - 1) / PGSIZE * PGSIZE
  vm.allocuvm sz (sz + 2 * PGSIZE) ≠ 0 && argc ≤ MAXARG && (List.range (argc + 1)).all vm.copyout

/-- `exec`. -/
def exec (p : PId) (vm : Vm) (path : List UInt8) (argc : Nat) : FsM Int := do
  beginOp
  match (← namei p 1 path) with
  | none =>
    endOp
    pure (-1)
  | some ip =>
    ilock ip
    let sz ← execImage vm ip
    iunlockput ip
    endOp
    match sz with
    | none => pure (-1)
    | some sz => pure (if execStack vm sz argc then 0 else -1)

/-! ## Processes -/

/-- The globals as the kernel is loaded: all zero. -/
def zeroed (store : Store) (sb sb2 : Superblock) (diskPresence : BitVec 8) (initproc : PId) :
    Fs where
  store := store
  sb := sb
  sb2 := sb2
  inode _ := ⟨Dinode.zero, 0, 0, 0, false, false, false⟩
  mountPoint := none
  mountRoot := none
  mountlock := false
  diskPresence := diskPresence
  file _ := ⟨.FD_NONE, 0, false, false, none, 0⟩
  proc _ := ⟨.unused, none, none, fun _ => none⟩
  initproc := initproc
  io := []
  trace := []

/-- `userinit`. -/
def userinit : FsM Unit := do
  let p ← gets fun s => s.initproc
  let ip ← namei p 1 [slash]
  setProc p fun x => { x with cwd := ip, state := .runnable }

/-- The loop of `fork` over the open files. -/
def forkFile (p np : PId) (fd : Fin NOFILE) : FsM Unit := do
  match (← gets fun s => (s.proc p).ofile fd) with
  | none => pure ()
  | some f =>
    filedup f
    setOfile np fd (some f)

/-- `fork`.  `room` says whether `allocproc` and `copyuvm` find memory. -/
def fork (p : PId) (room : Bool) : FsM Int := do
  match (← gets fun s => (List.finRange NPROC).find? fun q => (s.proc q).state = .unused) with
  | none => pure (-1)
  | some np =>
    if !room then
      pure (-1)
    else
      setProc np fun x => { x with state := .embryo, parent := some p }
      (List.finRange NOFILE).forM (forkFile p np)
      let ip ← idup (← cwd p)
      setCwd np (some ip)
      setProc np fun x => { x with state := .runnable }
      pure np.val

/-- The loop of `exit` over the open files. -/
def exitFile (p : PId) (fd : Fin NOFILE) : FsM Unit := do
  match (← gets fun s => (s.proc p).ofile fd) with
  | none => pure ()
  | some f =>
    fileclose f
    setOfile p fd none

/-- `exit`, up to the switch that does not come back. -/
def exit (p : PId) : FsM Unit := do
  if p = (← gets fun s => s.initproc) then
    halt "initproc exiting"
  (List.finRange NOFILE).forM (exitFile p)
  beginOp
  iput (← cwd p)
  endOp
  setCwd p none
  update fun s => { s with proc := fun q =>
    if (s.proc q).parent = some p then { s.proc q with parent := some s.initproc } else s.proc q }
  setProc p fun x => { x with state := .zombie }

/-- `wait`, if it need not sleep. -/
def wait (p : PId) : FsM Int := do
  match (← gets fun s => (List.finRange NPROC).find? fun q =>
      (s.proc q).parent = some p && (s.proc q).state = .zombie) with
  | some q =>
    setProc q fun x => { x with state := .unused, parent := none }
    pure q.val
  | none =>
    if (← gets fun s => (List.finRange NPROC).all fun q => (s.proc q).parent ≠ some p) then
      pure (-1)
    else
      stop .hang

end Xv6Rework.Fs
