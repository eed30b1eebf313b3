import Xv6Rework.Lib.Bytes
import Xv6Rework.Lib.Prog

/-!
# Pages and page tables

`kernel/mm/kalloc.c` and the functions of `kernel/arch/x86_32/mem/vm.c` that
build, copy, write and free address spaces.

Physical memory is a sequence of page frames of `PGSIZE` bytes; a frame is named
by its number, and a pointer to a page is the number of its frame.  A page table
is read and written as an array of little-endian words.  Such a word, an entry, is
split into the fields the code masks out of it.  Virtual addresses are byte
addresses, natural numbers below `2 ^ 32`.

The free list is a list of frames.  `deny` stands for the rest of the machine:
it says which of the next calls of `kalloc` return 0, besides those that find
the list empty.

The addresses of `memlayout.h` and of the linker script come in as a `Layout`,
in pages.
-/

namespace Xv6Rework.Vm

open Prog

/-- `PGSIZE`, `mmu.h`. -/
@[irreducible] def PGSIZE : Nat := 4096
/-- `NPDENTRIES`, `mmu.h`, and `NPTENTRIES`. -/
@[irreducible] def NPDENTRIES : Nat := 1024
/-- `KERNBASE`, `memlayout.h`, in pages. -/
@[irreducible] def KERNPAGE : Nat := 2 ^ 19
/-- `KERNBASE`, `memlayout.h`. -/
@[irreducible] def KERNBASE : Nat := KERNPAGE * PGSIZE

theorem kernbase_eq : KERNBASE = 2 ^ 31 := by simp [KERNBASE, KERNPAGE, PGSIZE]

/-- Where things are in physical memory, in pages: `EXTMEM`, the kernel's `data` and
the first page behind its `end`, the end of what `kinit1` hands out, `PHYSTOP`;
and in virtual memory `DEVSPACE`. -/
structure Layout where
  extmem : Nat
  data : Nat
  first : Nat
  early : Nat
  phystop : Nat
  devspace : Nat
  extmem_pos : 0 < extmem
  extmem_lt : extmem < data
  data_le : data ≤ first
  first_le : first ≤ early
  early_le : early ≤ phystop
  data_lt : data < phystop
  phystop_le : KERNPAGE + phystop ≤ devspace
  devspace_lt : devspace < 2 ^ 20

/-- `memlayout.h`, for a kernel whose data and end are in the pages `data` and `first`,
below what the boot page table maps. -/
def Layout.i386 (data first : Nat) (hdata : 0x100 < data) (hfirst : data ≤ first)
    (hearly : first ≤ 0x400) : Layout where
  extmem := 0x100
  data := data
  first := first
  early := 0x400
  phystop := 0xE000
  devspace := 0xFE000
  extmem_pos := by decide
  extmem_lt := hdata
  data_le := hfirst
  first_le := hearly
  early_le := by decide
  data_lt := by omega
  phystop_le := by simp [KERNPAGE]
  devspace_lt := by decide

/-- The flags of an entry, `PTE_FLAGS`: `PTE_P`, `PTE_W`, `PTE_U`, and the other nine bits. -/
structure Flags where
  present : Bool
  writable : Bool
  user : Bool
  rest : Nat
deriving DecidableEq, Repr

/-- A page directory or page table entry: `PTE_ADDR` as a page number, and the flags. -/
structure Pte extends Flags where
  frame : Nat
deriving DecidableEq, Repr

/-- The entry of a cleared page. -/
def Pte.zero : Pte := ⟨⟨false, false, false, 0⟩, 0⟩

/-- The entry a word stands for. -/
def Pte.ofNat (w : Nat) : Pte :=
  ⟨⟨w % 2 = 1, w / 2 % 2 = 1, w / 4 % 2 = 1, w / 8 % 2 ^ 9⟩, w / 2 ^ 12⟩

/-- The word of an entry. -/
def Pte.toNat (e : Pte) : Nat :=
  e.frame * 2 ^ 12 + e.rest * 8 + e.user.toNat * 4 + e.writable.toNat * 2 + e.present.toNat

/-- The contents of the frames. -/
abbrev Ram := Nat → Bytes 4096

/-- Entry `i` of the page in frame `f`. -/
@[irreducible] def Ram.page (r : Ram) (f i : Nat) : Pte := .ofNat ((r f).getLE (4 * i) 4)

/-- The allocator and the contents of the frames. -/
structure Mem where
  freelist : List Nat
  ram : Ram
  deny : List Bool

/-- Code that runs on memory. -/
abbrev MemM := Prog Mem

/-- Store a whole page. -/
def Mem.setPage (m : Mem) (f : Nat) (x : Bytes 4096) : Mem :=
  { m with ram := Function.update m.ram f x }

/-- Store to an entry of a page. -/
def Mem.setPte (m : Mem) (f i : Nat) (e : Pte) : Mem :=
  m.setPage f ((m.ram f).setLE (4 * i) 4 e.toNat)

/-- Store bytes to a page, from an offset on. -/
def Mem.setBytes (m : Mem) (f off : Nat) (l : List UInt8) : Mem :=
  m.setPage f ((m.ram f).blit off l.length fun i => l.getD i 0)

/-! ## The allocator -/

/-- `kalloc`. -/
def kalloc : MemM (Option Nat) := do
  let denied ← gets fun m => m.deny.headD false
  update fun m => { m with deny := m.deny.tail }
  if denied then
    pure none
  else
    match (← gets fun m => m.freelist) with
    | [] => pure none
    | r :: l =>
      update fun m => { m with freelist := l }
      pure (some r)

/-- What `kfree` fills a page with, `memset(v, 1, PGSIZE)`. -/
def junk : Bytes 4096 := fun _ => 1

/-- `kfree`. -/
def kfree (I : Layout) (v : Nat) : MemM Unit := do
  if v < I.first ∨ I.phystop ≤ v then
    halt "kfree"
  update fun m => m.setPage v junk
  update fun m => { m with freelist := v :: m.freelist }

/-- `freerange`. -/
def freerange (I : Layout) (vstart vend : Nat) : MemM Unit :=
  (List.range' vstart (vend - vstart)).forM (kfree I)

/-- `kinit1`, called with the end of the kernel and the end of what the boot page
table maps. -/
def kinit1 (I : Layout) : MemM Unit := freerange I I.first I.early

/-- `kinit2`, called with the rest of physical memory. -/
def kinit2 (I : Layout) : MemM Unit := freerange I I.early I.phystop

/-- `memset(page, 0, PGSIZE)`. -/
def clear (f : Nat) : MemM Unit := update fun m => m.setPage f .zero

/-! ## Page tables -/

/-- `PDX`. -/
def PDX (va : Nat) : Nat := va / 2 ^ 22 % NPDENTRIES
/-- `PTX`. -/
def PTX (va : Nat) : Nat := va / 2 ^ 12 % NPDENTRIES
/-- `PGROUNDUP`. -/
def PGROUNDUP (sz : Nat) : Nat := (sz + PGSIZE - 1) / PGSIZE * PGSIZE
/-- `PGROUNDDOWN`. -/
def PGROUNDDOWN (a : Nat) : Nat := a / PGSIZE * PGSIZE
/-- Addition of `uint32`. -/
def add32 (a b : Nat) : Nat := (a + b) % 2 ^ 32
/-- Subtraction of `uint32`. -/
def sub32 (a b : Nat) : Nat := (a + 2 ^ 32 - b) % 2 ^ 32

/-- `walkpgdir`.  The address of an entry is its page and its index. -/
def walkpgdir (pgdir va : Nat) (alloc : Bool) : MemM (Option (Nat × Nat)) := do
  let pde ← gets fun m => m.ram.page pgdir (PDX va)
  if pde.present then
    pure (some (pde.frame, PTX va))
  else if !alloc then
    pure none
  else
    match (← kalloc) with
    | none => pure none
    | some pgtab =>
      clear pgtab
      update fun m => m.setPte pgdir (PDX va) ⟨⟨true, true, true, 0⟩, pgtab⟩
      pure (some (pgtab, PTX va))

/-- The loop of `mappages`. -/
def mapLoop (pgdir last : Nat) (perm : Flags) : Nat → Nat → Nat → MemM Bool
  | 0, _, _ => stop .hang
  | k + 1, a, pa => do
    match (← walkpgdir pgdir a true) with
    | none => pure false
    | some (t, j) =>
      if (← gets fun m => (m.ram.page t j).present) then
        halt "remap"
      update fun m => m.setPte t j ⟨{ perm with present := true }, pa⟩
      if a = last then
        pure true
      else
        mapLoop pgdir last perm k (a + PGSIZE) (pa + 1)

/-- `mappages`; whether it returns 0. -/
def mappages (pgdir va size pa : Nat) (perm : Flags) : MemM Bool :=
  mapLoop pgdir (PGROUNDDOWN (va + size - 1)) perm (2 ^ 20) (PGROUNDDOWN va) pa

/-- The loop of `deallocuvm`.  Where there is no page table the address jumps to the
next directory entry. -/
def deallocLoop (I : Layout) (pgdir oldsz : Nat) : Nat → Nat → MemM Unit
  | 0, _ => stop .hang
  | k + 1, a => do
    if a < oldsz then
      match (← walkpgdir pgdir a false) with
      | none => deallocLoop I pgdir oldsz k ((PDX a + 1) * 2 ^ 22)
      | some (t, j) =>
        let pte ← gets fun m => m.ram.page t j
        if pte.present then
          if pte.frame = 0 then
            halt "kfree"
          kfree I pte.frame
          update fun m => m.setPte t j Pte.zero
        deallocLoop I pgdir oldsz k (a + PGSIZE)

/-- `deallocuvm`. -/
def deallocuvm (I : Layout) (pgdir oldsz newsz : Nat) : MemM Nat := do
  if newsz ≥ oldsz then
    pure oldsz
  else
    deallocLoop I pgdir oldsz (2 ^ 20) (PGROUNDUP newsz)
    pure newsz

/-- The body of the loop of `freevm`. -/
def freeTable (I : Layout) (pgdir i : Nat) : MemM Unit := do
  let pde ← gets fun m => m.ram.page pgdir i
  if pde.present then
    kfree I pde.frame

/-- `freevm`. -/
def freevm (I : Layout) : Option Nat → MemM Unit
  | none => halt "freevm: no pgdir"
  | some pgdir => do
    let _ ← deallocuvm I pgdir KERNBASE 0
    (List.range NPDENTRIES).forM (freeTable I pgdir)
    kfree I pgdir

/-- `PTE_W`. -/
def PTE_W : Flags := ⟨false, true, false, 0⟩

/-- `PTE_W | PTE_U`. -/
def PTE_WU : Flags := ⟨false, true, true, 0⟩

/-- An entry of `kmap`: virtual page, physical start and end, permissions. -/
structure Kmap where
  virt : Nat
  physStart : Nat
  physEnd : Nat
  perm : Flags

/-- `kmap`, in pages. -/
def kmap (I : Layout) : List Kmap :=
  [⟨KERNPAGE, 0, I.extmem, PTE_W⟩,
    ⟨KERNPAGE + I.extmem, I.extmem, I.data, ⟨false, false, false, 0⟩⟩,
    ⟨KERNPAGE + I.data, I.data, I.phystop, PTE_W⟩,
    ⟨I.devspace, I.devspace, 0, PTE_W⟩]

/-- The loop of `setupkvm`; whether all of `kmap` was mapped. -/
def mapKernel (pgdir : Nat) : List Kmap → MemM Bool
  | [] => pure true
  | k :: l => do
    if (← mappages pgdir (k.virt * PGSIZE) (sub32 (k.physEnd * PGSIZE) (k.physStart * PGSIZE))
        k.physStart k.perm) then
      mapKernel pgdir l
    else
      pure false

/-- `setupkvm`. -/
def setupkvm (I : Layout) : MemM (Option Nat) := do
  match (← kalloc) with
  | none => pure none
  | some pgdir =>
    clear pgdir
    if KERNPAGE + I.phystop > I.devspace then
      halt "PHYSTOP too high"
    if (← mapKernel pgdir (kmap I)) then
      pure (some pgdir)
    else
      freevm I (some pgdir)
      pure none

/-! ## User memory -/

/-- `inituvm`.  Neither `kalloc` nor `mappages` is checked; clearing page 0 faults. -/
def inituvm (pgdir : Nat) (init : List UInt8) : MemM Unit := do
  if init.length ≥ PGSIZE then
    halt "inituvm: more than a page"
  match (← kalloc) with
  | none => halt "PAGE FAULT"
  | some mem =>
    clear mem
    let _ ← mappages pgdir 0 PGSIZE mem PTE_WU
    update fun m => m.setBytes mem 0 init

/-- The loop of `allocuvm` that grows down; whether it did not run out of memory. -/
def allocDownLoop (I : Layout) (pgdir oldsz newsz : Nat) : Nat → Nat → MemM Bool
  | 0, _ => stop .hang
  | k + 1, a => do
    if a ≥ newsz then
      match (← kalloc) with
      | none =>
        let _ ← deallocuvm I pgdir oldsz newsz
        pure false
      | some mem =>
        clear mem
        if (← mappages pgdir a PGSIZE mem PTE_WU) then
          if a = 0 then
            pure true
          else
            allocDownLoop I pgdir oldsz newsz k (sub32 a PGSIZE)
        else
          let _ ← deallocuvm I pgdir oldsz newsz
          kfree I mem
          pure false
    else
      pure true

/-- The loop of `allocuvm`, and its result. -/
def allocLoop (I : Layout) (pgdir oldsz newsz : Nat) : Nat → Nat → MemM Nat
  | 0, _ => stop .hang
  | k + 1, a => do
    if a < newsz then
      match (← kalloc) with
      | none =>
        let _ ← deallocuvm I pgdir newsz oldsz
        pure 0
      | some mem =>
        clear mem
        if (← mappages pgdir a PGSIZE mem PTE_WU) then
          allocLoop I pgdir oldsz newsz k (a + PGSIZE)
        else
          let _ ← deallocuvm I pgdir newsz oldsz
          kfree I mem
          pure 0
    else
      pure newsz

/-- `allocuvm`. -/
def allocuvm (I : Layout) (pgdir oldsz newsz : Nat) (growDown : Bool) : MemM Nat := do
  if newsz ≥ KERNBASE then
    pure 0
  else if newsz < oldsz then
    pure oldsz
  else if growDown then
    if (← allocDownLoop I pgdir oldsz newsz (2 ^ 20) (PGROUNDDOWN (sub32 oldsz 1))) then
      allocLoop I pgdir oldsz newsz (2 ^ 20) (PGROUNDUP oldsz)
    else
      pure 0
  else
    allocLoop I pgdir oldsz newsz (2 ^ 20) (PGROUNDUP oldsz)

/-- `clearpteu`. -/
def clearpteu (pgdir uva : Nat) : MemM Unit := do
  match (← walkpgdir pgdir uva false) with
  | none => halt "clearpteu"
  | some (t, j) => update fun m => m.setPte t j { m.ram.page t j with user := false }

/-- The loop of `copyuvm`; whether all pages were copied. -/
def copyLoop (I : Layout) (pgdir d sz : Nat) : Nat → Nat → MemM Bool
  | 0, _ => stop .hang
  | k + 1, i => do
    if i < sz then
      match (← walkpgdir pgdir i false) with
      | none => halt "copyuvm: pte should exist"
      | some (t, j) =>
        let pte ← gets fun m => m.ram.page t j
        if !pte.present then
          halt "copyuvm: page not present"
        match (← kalloc) with
        | none => pure false
        | some mem =>
          update fun m => m.setPage mem (m.ram pte.frame)
          if (← mappages d i PGSIZE mem pte.toFlags) then
            copyLoop I pgdir d sz k (i + PGSIZE)
          else
            kfree I mem
            pure false
    else
      pure true

/-- `copyuvm`. -/
def copyuvm (I : Layout) (pgdir sz : Nat) : MemM (Option Nat) := do
  match (← setupkvm I) with
  | none => pure none
  | some d =>
    if (← copyLoop I pgdir d sz (2 ^ 20) 0) then
      pure (some d)
    else
      freevm I (some d)
      pure none

/-- `uva2ka`.  The null pointer that `walkpgdir` returns where there is no page table is
dereferenced.  What the caller may have at address 0 is not followed; the model stops. -/
def uva2ka (pgdir uva : Nat) : MemM (Option Nat) := do
  match (← walkpgdir pgdir uva false) with
  | none => halt "PAGE FAULT"
  | some (t, j) =>
    let pte ← gets fun m => m.ram.page t j
    if !pte.present then
      pure none
    else if !pte.user then
      pure none
    else
      pure (some pte.frame)

/-- The loop of `copyout`; whether it returns 0. -/
def copyoutLoop (pgdir : Nat) : Nat → Nat → List UInt8 → MemM Bool
  | 0, _, _ => stop .hang
  | k + 1, va, buf => do
    if buf.length > 0 then
      let va0 := PGROUNDDOWN va
      match (← uva2ka pgdir va0) with
      | none => pure false
      | some pa0 =>
        let n := min (PGSIZE - (va - va0)) buf.length
        update fun m => m.setBytes pa0 (va - va0) (buf.take n)
        copyoutLoop pgdir k (add32 va0 PGSIZE) (buf.drop n)
    else
      pure true

/-- `copyout` of the bytes `p`. -/
def copyout (pgdir va : Nat) (p : List UInt8) : MemM Bool := copyoutLoop pgdir (2 ^ 20 + 2) va p

end Xv6Rework.Vm
