import Xv6Rework.Fs.Process
import Xv6Rework.Mem.Vm

/-!
# `exec`

`kernel/exec.c` and `loaduvm` of `vm.c` in full: the file system of `Fs/State.lean` and the
memory of `Mem/Vm.lean` together, with the fields of the calling process that `exec` stores
to.  The pages of the new image are written byte by byte.

A C string is the list of its bytes without the terminator.  The arguments are read from the
old address space, which stays as it is until `exec` commits, so they are a list of strings
here.  `switchuvm` loads the new directory into the processor and is left out.
-/

namespace Xv6Rework

open Prog Vm
open Fs (ELF_MAGIC ELF_PROG_LOAD MAXARG Elfhdr Proghdr leAt)

/-- The file system, the memory, and of the calling process `pgdir`, `sz`, `tf->eip`,
`tf->esp` and `name`. -/
structure Caller where
  fs : Fs
  mem : Mem
  pgdir : Nat
  sz : Nat
  eip : Nat
  esp : Nat
  name : List UInt8

/-- Code that runs on files and memory. -/
abbrev CallerM := Prog Caller

namespace Caller

/-- Run code of the file system. -/
def onFs {α : Type} (x : FsM α) : CallerM α := zoom Caller.fs (fun w s => { w with fs := s }) x

/-- Run code that only uses memory. -/
def onMem {α : Type} (x : MemM α) : CallerM α := zoom Caller.mem (fun w m => { w with mem := m }) x

/-! ## Loading the program -/

/-- The loop of `loaduvm`, from the offset `i` on; whether it returns 0.  What `readi` reads
goes to the frame of the page, also if it is less than was asked for. -/
def loadLoop (pgdir addr : Nat) (ip : Slot) (offset : UInt32) (sz : Nat) : Nat → Nat → CallerM Bool
  | 0, _ => stop .hang
  | k + 1, i => do
    if i < sz then
      match (← onMem (walkpgdir pgdir (add32 addr i) false)) with
      | none => halt "loaduvm: address should exist"
      | some (t, j) =>
        let pa ← gets fun w => (w.mem.ram.page t j).frame
        let n := if sz - i < PGSIZE then sz - i else PGSIZE
        let (r, l) ← onFs (Fs.readi ip (offset + UInt32.ofNat i) (UInt32.ofNat n))
        onMem (update fun m => m.setBytes pa 0 l)
        if r ≠ n then
          pure false
        else
          loadLoop pgdir addr ip offset sz k (add32 i PGSIZE)
    else
      pure true

/-- `loaduvm`. -/
def loaduvm (pgdir addr : Nat) (ip : Slot) (offset : UInt32) (sz : Nat) : CallerM Bool := do
  if addr % PGSIZE ≠ 0 then
    halt "loaduvm: addr must be page aligned"
  loadLoop pgdir addr ip offset sz (2 ^ 20 + 1) 0

/-- The loop over the program headers: the size of what has been loaded, or `none` for
`goto bad`. -/
def loadSegments (I : Layout) (pgdir : Nat) (ip : Slot) : Nat → UInt32 → Nat → CallerM (Option Nat)
  | 0, _, sz => pure (some sz)
  | k + 1, off, sz => do
    let (r, l) ← onFs (Fs.readi ip off 32)
    let ph := Proghdr.ofBytes l
    if r ≠ 32 then
      pure none
    else if ph.type ≠ ELF_PROG_LOAD then
      loadSegments I pgdir ip k (off + 32) sz
    else if ph.memsz < ph.filesz then
      pure none
    else if ph.vaddr + ph.memsz < ph.vaddr then
      pure none
    else
      let sz ← onMem (allocuvm I pgdir sz (ph.vaddr + ph.memsz).toNat false)
      if sz = 0 then
        pure none
      else if ph.vaddr.toNat % PGSIZE ≠ 0 then
        pure none
      else if (← loaduvm pgdir ph.vaddr.toNat ip ph.off ph.filesz.toNat) then
        loadSegments I pgdir ip k (off + 32) sz
      else
        pure none

/-- The label `bad`, after which `exec` returns -1. -/
def bad (I : Layout) (pgdir : Option Nat) (ip : Option Slot) : CallerM Unit := do
  match pgdir with
  | some d => onMem (freevm I (some d))
  | none => pure ()
  match ip with
  | some ip =>
    onFs (Fs.iunlockput ip)
    onFs Fs.endOp
  | none => pure ()

/-- `exec` while it has the file locked: the new directory, its size and the entry point. -/
def loadFile (I : Layout) (ip : Slot) : CallerM (Option (Nat × Nat × Nat)) := do
  let (r, l) ← onFs (Fs.readi ip 0 52)
  let elf := Elfhdr.ofBytes l
  if r ≠ 52 then
    bad I none (some ip)
    pure none
  else if elf.magic ≠ ELF_MAGIC then
    halt "bad elf magic"
  else
    match (← onMem (setupkvm I)) with
    | none =>
      bad I none (some ip)
      pure none
    | some pgdir =>
      match (← loadSegments I pgdir ip elf.phnum elf.phoff 0) with
      | none =>
        bad I (some pgdir) (some ip)
        pure none
      | some sz =>
        onFs (Fs.iunlockput ip)
        onFs Fs.endOp
        pure (some (pgdir, sz, leAt l 24 4))

/-- The two pages above the program: the size with them.  The first is made inaccessible and
the second is the stack. -/
def addStack (I : Layout) (pgdir sz : Nat) : CallerM (Option Nat) := do
  let sz := PGROUNDUP sz
  let sz ← onMem (allocuvm I pgdir sz (add32 sz (2 * PGSIZE)) false)
  if sz = 0 then
    bad I (some pgdir) none
    pure none
  else
    onMem (clearpteu pgdir (sub32 sz (2 * PGSIZE)))
    pure (some sz)

/-- `exec` up to the arguments: the new directory, its size and the entry point, or `none`
where it has returned -1. -/
def loadImage (I : Layout) (p : PId) (path : List UInt8) : CallerM (Option (Nat × Nat × Nat)) := do
  onFs Fs.beginOp
  match (← onFs (Fs.namei p 1 path)) with
  | none =>
    onFs Fs.endOp
    pure none
  | some ip =>
    onFs (Fs.ilock ip)
    match (← loadFile I ip) with
    | none => pure none
    | some (pgdir, sz, entry) =>
      match (← addStack I pgdir sz) with
      | none => pure none
      | some sz => pure (some (pgdir, sz, entry))

/-! ## The arguments -/

/-- Where a string goes that is pushed at `sp`. -/
def push (sp : Nat) (s : List UInt8) : Nat := sub32 sp (s.length + 1) / 4 * 4

/-- The loop over the arguments: the stack pointer and the strings' addresses, or `none` for
`goto bad`. -/
def pushArgs (pgdir : Nat) : List (List UInt8) → Nat → List Nat → MemM (Option (Nat × List Nat))
  | [], sp, ustack => pure (some (sp, ustack))
  | s :: argv, sp, ustack => do
    if ustack.length ≥ MAXARG then
      pure none
    else
      let sp := push sp s
      if (← copyout pgdir sp (s ++ [0])) then
        pushArgs pgdir argv sp (ustack ++ [sp])
      else
        pure none

/-- The bytes of a `uint32`. -/
def wordBytes (w : Nat) : List UInt8 :=
  [.ofNat w, .ofNat (w / 256), .ofNat (w / 256 ^ 2), .ofNat (w / 256 ^ 3)]

/-- `ustack`: a fake return address, `argc`, `argv`, and the strings' addresses with a null
pointer behind them. -/
def ustack (sp : Nat) (ptrs : List Nat) : List Nat :=
  0xffffffff :: ptrs.length :: sub32 sp ((ptrs.length + 1) * 4) :: (ptrs ++ [0])

/-- The strings and `ustack` go on the stack: the final stack pointer. -/
def copyArgs (pgdir sz : Nat) (argv : List (List UInt8)) : MemM (Option Nat) := do
  match (← pushArgs pgdir argv sz []) with
  | none => pure none
  | some (sp, ptrs) =>
    let esp := sub32 sp ((3 + ptrs.length + 1) * 4)
    if (← copyout pgdir esp ((ustack sp ptrs).flatMap wordBytes)) then
      pure (some esp)
    else
      pure none

/-! ## The call -/

/-- The part of a path behind the last slash, from `last` on. -/
def lastElem : List UInt8 → List UInt8 → List UInt8
  | last, [] => last
  | last, c :: s => lastElem (if c = slash then s else last) s

/-- `safestrcpy` to `curproc->name`. -/
def safename (s : List UInt8) : List UInt8 := s.take 15

/-- `exec`. -/
def exec (I : Layout) (p : PId) (path : List UInt8) (argv : List (List UInt8)) : CallerM Int := do
  match (← loadImage I p path) with
  | none => pure (-1)
  | some (pgdir, sz, entry) =>
    match (← onMem (copyArgs pgdir sz argv)) with
    | none =>
      bad I (some pgdir) none
      pure (-1)
    | some esp =>
      let oldpgdir ← gets fun w => w.pgdir
      update fun w => { w with
        name := safename (lastElem path path), pgdir := pgdir, sz := sz, eip := entry, esp := esp }
      onMem (freevm I (some oldpgdir))
      pure 0

end Caller

end Xv6Rework
