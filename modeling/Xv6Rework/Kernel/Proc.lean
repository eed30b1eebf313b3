import Xv6Rework.Mem.Heap
import Xv6Rework.Sched.Signal

/-!
# Processes and their memory

The calls of `kernel/sched/proc.c`, `kernel/exec.c` and `kernel/ipc/pipe.c` that
take pages from the allocator and give them back, on the scheduler's state of
`Sched/State.lean` and the memory of `Mem/Vm.lean` together.

`fork` and `wait` of `Sched/Proc.lean` are their halves that deal with the process
table; here they are told what the allocator answered.  A free slot's `pgdir` is
whatever it was last, as in the source: `wait` clears `kstack` only.

What `exec` reads from a file, and whether it could copy the arguments out, is an
argument here, and what it writes to the new pages is left out.
-/

namespace Xv6Rework

open Prog Vm

/-- The two ends of the pipe in a page. -/
structure PipeEnds where
  readopen : Bool
  writeopen : Bool
deriving DecidableEq, Repr

/-- The process table, the memory and what points to pages: `kpgdir`, the stacks of
the processors, `kstack` and `pgdir` of each process, and the pipes, by their
pages. -/
structure Kernel where
  sched : Sched
  mem : Mem
  kpgdir : Option Nat
  cpuStack : List Nat
  kstack : PId → Option Nat
  pgdir : PId → Option Nat
  sz : PId → Nat
  pipe : Nat → Option PipeEnds

/-- Code that runs on processes and memory. -/
abbrev KernelM := Prog Kernel

namespace Kernel

/-- Run code that only uses the scheduler's state. -/
def onSched {α : Type} (x : SchedM α) : KernelM α :=
  zoom Kernel.sched (fun k s => { k with sched := s }) x

/-- Run code that only uses memory. -/
def onMem {α : Type} (x : MemM α) : KernelM α := zoom Kernel.mem (fun k m => { k with mem := m }) x

/-- Store to a process's `kstack`. -/
def setStack (k : Kernel) (p : PId) (f : Option Nat) : Kernel :=
  { k with kstack := Function.update k.kstack p f }

/-- Store to a process's `pgdir`. -/
def setPgdir (k : Kernel) (p : PId) (d : Option Nat) : Kernel :=
  { k with pgdir := Function.update k.pgdir p d }

/-- Store to a process's `sz`. -/
def setSz (k : Kernel) (p : PId) (sz : Nat) : Kernel :=
  { k with sz := Function.update k.sz p sz }

/-- A pointer that must not be null. -/
def deref (x : Option Nat) : KernelM Nat :=
  match x with
  | none => halt "PAGE FAULT"
  | some f => pure f

/-! ## Calls -/

/-- `fork`. -/
def fork (I : Layout) (curproc : PId) : KernelM (Option Int32) := do
  match (← gets fun k => (List.finRange NPROC).find? fun p => (k.sched.proc p).state = .unused) with
  | none => onSched (Xv6Rework.fork curproc false false)
  | some np =>
    let kstack ← onMem kalloc
    update fun k => k.setStack np kstack
    match kstack with
    | none => onSched (Xv6Rework.fork curproc false false)
    | some f =>
      let d ← deref (← gets fun k => k.pgdir curproc)
      let sz ← gets fun k => k.sz curproc
      let pgdir ← onMem (copyuvm I d sz)
      update fun k => k.setPgdir np pgdir
      match pgdir with
      | none =>
        onMem (kfree I f)
        update fun k => k.setStack np none
        onSched (Xv6Rework.fork curproc true false)
      | some _ =>
        update fun k => k.setSz np sz
        onSched (Xv6Rework.fork curproc true true)

/-- One round of the loop of `wait`. -/
def wait (I : Layout) (c : CpuId) (curproc : PId) : KernelM (Option Int32) := do
  match (← gets fun k => (List.finRange NPROC).find? fun p =>
      decide ((k.sched.proc p).parent = some curproc) &&
        decide ((k.sched.proc p).state = .zombie)) with
  | none => onSched (Xv6Rework.wait c curproc)
  | some p =>
    match (← gets fun k => k.kstack p) with
    | none => halt "kfree"
    | some f => onMem (kfree I f)
    update fun k => k.setStack p none
    onMem (freevm I (← gets fun k => k.pgdir p))
    onSched (Xv6Rework.wait c curproc)

/-- `growproc`; whether it returns 0.  Where `deallocuvm` returns 0 because that is
the new size, `sz` keeps its value. -/
def growproc (I : Layout) (curproc : PId) (n : Int) : KernelM Bool := do
  let sz ← gets fun k => k.sz curproc
  let d ← deref (← gets fun k => k.pgdir curproc)
  if n > 0 then
    let sz ← onMem (allocuvm I d sz (add32 sz n.toNat) false)
    if sz = 0 then
      pure false
    else
      update fun k => k.setSz curproc sz
      pure true
  else if n < 0 then
    let sz ← onMem (deallocuvm I d sz (sub32 sz (-n).toNat))
    if sz = 0 then
      pure false
    else
      update fun k => k.setSz curproc sz
      pure true
  else
    pure true

/-- A program header, and which pages of the segment `readi` could read. -/
structure ProgHdr where
  load : Bool
  vaddr : Nat
  filesz : Nat
  memsz : Nat
  readi : Nat → Bool

/-- What `exec` is called with: whether the file has an ELF header and the right magic
number, the program headers, with `none` for one that could not be read, and whether
the arguments fit on the stack. -/
structure Image where
  header : Bool
  magic : Bool
  ph : List (Option ProgHdr)
  args : Bool

/-- The loop of `loaduvm`, from the offset `i` on; whether it returns 0. -/
def loadLoop (pgdir : Nat) (ph : ProgHdr) : Nat → Nat → MemM Bool
  | 0, _ => stop .hang
  | k + 1, i => do
    if i < ph.filesz then
      match (← walkpgdir pgdir (ph.vaddr + i) false) with
      | none => halt "loaduvm: address should exist"
      | some _ =>
        if ph.readi i then
          loadLoop pgdir ph k (i + PGSIZE)
        else
          pure false
    else
      pure true

/-- `loaduvm`. -/
def loaduvm (pgdir : Nat) (ph : ProgHdr) : MemM Bool := do
  if ph.vaddr % PGSIZE ≠ 0 then
    halt "loaduvm: addr must be page aligned"
  loadLoop pgdir ph (2 ^ 20 + 1) 0

/-- The loop of `exec` over the program headers; `none` is `goto bad`. -/
def loadLoopExec (I : Layout) (pgdir : Nat) : List (Option ProgHdr) → Nat → MemM (Option Nat)
  | [], sz => pure (some sz)
  | none :: _, _ => pure none
  | some ph :: l, sz => do
    if !ph.load then
      loadLoopExec I pgdir l sz
    else if ph.memsz < ph.filesz then
      pure none
    else if add32 ph.vaddr ph.memsz < ph.vaddr then
      pure none
    else
      let sz ← allocuvm I pgdir sz (add32 ph.vaddr ph.memsz) false
      if sz = 0 then
        pure none
      else if ph.vaddr % PGSIZE ≠ 0 then
        pure none
      else if (← loaduvm pgdir ph) then
        loadLoopExec I pgdir l sz
      else
        pure none

/-- From `setupkvm` to the commit: the new directory and its size, or `none` for
`goto bad`. -/
def buildImage (I : Layout) (img : Image) : MemM (Option (Nat × Nat)) := do
  match (← setupkvm I) with
  | none => pure none
  | some pgdir =>
    match (← loadLoopExec I pgdir img.ph 0) with
    | none =>
      freevm I (some pgdir)
      pure none
    | some sz =>
      let sz ← allocuvm I pgdir (PGROUNDUP sz) (PGROUNDUP sz + 2 * PGSIZE) false
      if sz = 0 then
        freevm I (some pgdir)
        pure none
      else
        clearpteu pgdir (sz - 2 * PGSIZE)
        if img.args then
          pure (some (pgdir, sz))
        else
          freevm I (some pgdir)
          pure none

/-- `exec`; whether it returns 0. -/
def exec (I : Layout) (curproc : PId) (img : Image) : KernelM Bool := do
  if !img.header then
    pure false
  else if !img.magic then
    halt "bad elf magic"
  else
    match (← onMem (buildImage I img)) with
    | none => pure false
    | some (pgdir, sz) =>
      let oldpgdir ← gets fun k => k.pgdir curproc
      update fun k => k.setPgdir curproc (some pgdir)
      update fun k => k.setSz curproc sz
      onMem (freevm I oldpgdir)
      pure true

/-- The page of `pipealloc`; whether it got one. -/
def pipealloc : KernelM Bool := do
  match (← onMem kalloc) with
  | none => pure false
  | some p =>
    update fun k => { k with pipe := Function.update k.pipe p (some ⟨true, true⟩) }
    pure true

/-- `pipeclose` of an end of the pipe in page `p`. -/
def pipeclose (I : Layout) (p : Nat) (writable : Bool) : KernelM Unit := do
  match (← gets fun k => k.pipe p) with
  | none => stop .hang
  | some e =>
    let e := if writable then { e with writeopen := false } else { e with readopen := false }
    if !e.readopen && !e.writeopen then
      update fun k => { k with pipe := Function.update k.pipe p none }
      onMem (kfree I p)
    else
      update fun k => { k with pipe := Function.update k.pipe p (some e) }

/-! ## Start-up -/

/-- The kernel as it is loaded, on a machine with `ncpu` processors. -/
def load (ncpu : Nat) : Kernel where
  sched := Sched.boot ncpu
  mem := ⟨[], fun _ => .zero, []⟩
  kpgdir := none
  cpuStack := []
  kstack _ := none
  pgdir _ := none
  sz _ := 0
  pipe _ := none

/-- `kvmalloc`. -/
def kvmalloc (I : Layout) : KernelM Unit := do
  let d ← onMem (setupkvm I)
  update fun k => { k with kpgdir := d }

/-- The stacks of `startothers`. -/
def startothers : Nat → KernelM Unit
  | 0 => pure ()
  | n + 1 => do
    match (← onMem kalloc) with
    | none => halt "PAGE FAULT"
    | some f => update fun k => { k with cpuStack := f :: k.cpuStack }
    startothers n

/-- `userinit`, with the program that is linked in as `_binary_initcode_start`. -/
def userinit (I : Layout) (initcode : List UInt8) : KernelM Unit := do
  onSched Xv6Rework.userinit
  match (← gets fun k => k.sched.initproc) with
  | none => halt "PAGE FAULT"
  | some p =>
    let kstack ← deref (← onMem kalloc)
    update fun k => k.setStack p (some kstack)
    match (← onMem (setupkvm I)) with
    | none => halt "userinit: out of memory?"
    | some d =>
      update fun k => k.setPgdir p (some d)
      onMem (inituvm d initcode)
      update fun k => k.setSz p PGSIZE

/-- `main`, as far as it deals with processes and memory. -/
def main (I : Layout) (ncpu : Nat) (initcode : List UInt8) : KernelM Unit := do
  onMem (kinit1 I)
  kvmalloc I
  startothers (ncpu - 1)
  onMem (kinit2 I)
  userinit I initcode

/-! ## The machine -/

/-- An operation: a call that uses memory, by the process on a CPU, or a step of the
scheduler. -/
inductive Op where
  | sched (call : Call)
  | fork (c : CpuId)
  | wait (c : CpuId)
  | sbrk (c : CpuId) (n : Int)
  | exec (c : CpuId) (img : Image)
  | pipe (c : CpuId)
  | pipeclose (c : CpuId) (p : Nat) (writable : Bool)

/-- The steps of the scheduler that have no memory half; `sig` is left out. -/
def isPlain : Call → Bool
  | .act (.fork ..) | .act (.wait _) | .sig .. => false
  | _ => true

/-- The code of an operation. -/
def Op.code (I : Layout) : Op → KernelM Unit
  | .sched call => if isPlain call then onSched call.exec else stop .hang
  | .fork c => do let _ ← Kernel.fork I (← onSched (myproc c))
  | .wait c => do let _ ← Kernel.wait I c (← onSched (myproc c))
  | .sbrk c n => do let _ ← growproc I (← onSched (myproc c)) n
  | .exec c img => do let _ ← Kernel.exec I (← onSched (myproc c)) img
  | .pipe c => do let _ ← onSched (myproc c); let _ ← pipealloc
  | .pipeclose c p writable => do let _ ← onSched (myproc c); Kernel.pipeclose I p writable

/-- An operation during which the next calls of `kalloc` are answered as `deny`
says. -/
def perform (I : Layout) (op : Op) (deny : List Bool) : KernelM Unit := do
  update fun k => { k with mem := { k.mem with deny := deny } }
  op.code I

/-- A step: the code of the operation returns. -/
def Step (I : Layout) (k : Kernel) (x : Op × List Bool) (k' : Kernel) : Prop :=
  perform I x.1 x.2 k = (.ok (), k')

/-- The states `main` leaves in which the first process has its page. -/
def Booted (I : Layout) (k : Kernel) : Prop :=
  ∃ ncpu initcode, 0 < ncpu ∧ ncpu ≤ NCPU ∧ main I ncpu initcode (load ncpu) = (.ok (), k) ∧
    ∃ p d, k.sched.initproc = some p ∧ k.pgdir p = some d ∧ k.mem.ram.pte d 0 ≠ none

end Kernel

end Xv6Rework
