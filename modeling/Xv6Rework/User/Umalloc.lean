import Xv6Rework.Lib.FreeList
import Xv6Rework.Lib.Machine
import Mathlib.Data.List.TakeWhile
import Mathlib.Algebra.GroupWithZero.Nat

/-!
# The allocator of user programs

`user/umalloc.c`.  A block is a header, with its size in units of a header and, while it is
free, the address of the next free block, and the memory behind it.  The free blocks are in a
cycle with the header `base`, which is static and below the heap.  `malloc` takes the first
block that is large enough, from where the last call left off, and asks the system for more
when it has been all around; `free` looks for the place of a block by its address and makes it
one with its neighbours if they touch.

Addresses and sizes are numbers below `2 ^ 32`.  The loops take fuel: a call returns a result if
it does with any fuel that is large enough (`Returns`).  The machine has all programs that
allocate, write to what they have allocated, and free it; the system answers each request for
memory as it likes, as long as the memory is new and above what it gave before.
-/

namespace Xv6Rework.Umalloc

open Function
open List (mem_cons mem_cons_self mem_cons_of_mem rel_of_pairwise_cons
  mem_append pairwise_append)

/-- `sizeof(Header)`. -/
def unit : Nat := 8

/-- `union header`. -/
structure Header where
  ptr : Nat
  size : Nat
deriving DecidableEq, Repr

/-- A piece of memory: where it starts, and its length in bytes. -/
structure Region where
  addr : Nat
  bytes : Nat
deriving DecidableEq, Repr

/-- The memory, seen as headers by their address; `freep`, 0 if null; and the memory that the
system has given. -/
structure Heap where
  mem : Nat → Header
  freep : Nat
  obtained : List Region

/-- What the system answers to a request for memory; `none` is -1. -/
abbrev Sbrk := Heap → Nat → Option Nat

namespace Heap

def setPtr (h : Heap) (a v : Nat) : Heap :=
  { h with mem := update h.mem a { h.mem a with ptr := v } }

def setSize (h : Heap) (a v : Nat) : Heap :=
  { h with mem := update h.mem a { h.mem a with size := v } }

def next (h : Heap) (a : Nat) : Nat := (h.mem a).ptr

def size (h : Heap) (a : Nat) : Nat := (h.mem a).size

/-- `p + p->s.size`: the end of the block at `a`. -/
def stop (h : Heap) (a : Nat) : Nat := (a + unit * h.size a) % 2 ^ 32

/-- The length of the block at `a`. -/
def len (h : Heap) (a : Nat) : Nat := unit * h.size a

end Heap

/-- The loop of `free` that looks for the block before `bp`. -/
def freeLoop (h : Heap) (bp : Nat) : Nat → Nat → Option Nat
  | 0, _ => none
  | fuel + 1, p =>
    if p < bp ∧ bp < h.next p then some p
    else if h.next p ≤ p ∧ (p < bp ∨ bp < h.next p) then some p
    else freeLoop h bp fuel (h.next p)

/-- The rest of `free`: `bp` is put behind `p`. -/
def freeAfter (h : Heap) (p bp : Nat) : Heap :=
  let next := h.next p
  let h := if h.stop bp = next
    then (h.setSize bp ((h.size bp + h.size next) % 2 ^ 32)).setPtr bp (h.next next)
    else h.setPtr bp next
  let h := if h.stop p = bp
    then (h.setSize p ((h.size p + h.size bp) % 2 ^ 32)).setPtr p (h.next bp)
    else h.setPtr p bp
  { h with freep := p }

/-- `free`. -/
def free (fuel : Nat) (h : Heap) (ap : Nat) : Option Heap :=
  (freeLoop h (ap - unit) fuel h.freep).map fun p => freeAfter h p (ap - unit)

/-- `morecore`. -/
def morecore (fuel : Nat) (sbrk : Sbrk) (h : Heap) (nu : Nat) : Option (Heap × Nat) :=
  let nu := if nu < 4096 then 4096 else nu
  match sbrk h (nu * unit % 2 ^ 32) with
  | none => some (h, 0)
  | some p => do
    let h := { h with obtained := ⟨p, nu * unit % 2 ^ 32⟩ :: h.obtained }
    let h ← free fuel (h.setSize p nu) (p + unit)
    return (h, h.freep)

/-- `malloc` when the block `p` behind `prevp` is large enough. -/
def take (h : Heap) (nunits prevp p : Nat) : Heap × Nat :=
  if h.size p = nunits then ({ h.setPtr prevp (h.next p) with freep := prevp }, p + unit)
  else
    let h := h.setSize p (h.size p - nunits)
    let p := h.stop p
    ({ h.setSize p nunits with freep := prevp }, p + unit)

/-- The loop of `malloc`. -/
def mallocLoop (sbrk : Sbrk) (nunits : Nat) : Nat → Heap → Nat → Nat → Option (Heap × Nat)
  | 0, _, _, _ => none
  | fuel + 1, h, prevp, p =>
    if nunits ≤ h.size p then some (take h nunits prevp p)
    else if p = h.freep then do
      let (h, p) ← morecore fuel sbrk h nunits
      if p = 0 then some (h, 0) else mallocLoop sbrk nunits fuel h p (h.next p)
    else mallocLoop sbrk nunits fuel h p (h.next p)

/-- The number of units for `nbytes`, and one for the header. -/
def units (nbytes : Nat) : Nat := (nbytes + unit - 1) % 2 ^ 32 / unit + 1

/-- `malloc`, which makes `base` the only block of the list the first time. -/
def malloc (base : Nat) (fuel : Nat) (sbrk : Sbrk) (h : Heap) (nbytes : Nat) :
    Option (Heap × Nat) :=
  let h := if h.freep = 0 then { h.setPtr base base |>.setSize base 0 with freep := base } else h
  mallocLoop sbrk (units nbytes) fuel h h.freep (h.next h.freep)

/-- A loop that takes fuel returns `x` if it does with any that is large enough. -/
def Returns {β : Type} (f : Nat → Option β) (x : β) : Prop :=
  ∃ n, ∀ fuel, n ≤ fuel → f fuel = some x

theorem Returns.unique {β : Type} {f : Nat → Option β} {x y : β} (hx : Returns f x)
    (hy : Returns f y) : x = y := by
  obtain ⟨m, hm⟩ := hx
  obtain ⟨n, hn⟩ := hy
  exact Option.some.inj ((hm (max m n) (le_max_left m n)).symm.trans
    (hn (max m n) (le_max_right m n)))

/-! ## Programs that use it -/

/-- The heap, and for each block that is allocated how many bytes were asked for.  A block is
known by the address of its header. -/
structure State where
  heap : Heap
  allocated : Nat → Option Nat

/-- Memory that the system gives is above `base` and all it has given before. -/
def Sbrk.Fresh (base : Nat) (sbrk : Sbrk) : Prop :=
  ∀ h n a, sbrk h n = some a → base + unit ≤ a ∧ a + n < 2 ^ 32 ∧ ∀ r ∈ h.obtained,
    r.addr + r.bytes ≤ a

/-- What a program does. -/
inductive Act where
  | malloc (nbytes : Nat) (sbrk : Sbrk)
  | free (ap : Nat)
  /-- Any stores to allocated memory. -/
  | write (mem : Nat → Header)

/-- One step of a program that frees only what is allocated, and writes only there. -/
def Step (base : Nat) (s : State) : Act → State → Prop
  | .malloc nbytes sbrk, s' => nbytes ≤ 2 ^ 30 ∧ sbrk.Fresh base ∧ ∃ h r,
      Returns (fun fuel => malloc base fuel sbrk s.heap nbytes) (h, r) ∧
      s' = ⟨h, if r = 0 then s.allocated
        else update s.allocated (r - unit) (some nbytes)⟩
  | .free ap, s' => (∃ n, unit ≤ ap ∧ s.allocated (ap - unit) = some n) ∧ ∃ h,
      Returns (fun fuel => free fuel s.heap ap) h ∧ s' =
      ⟨h, update s.allocated (ap - unit) none⟩
  | .write mem, s' =>
    (∀ a, (∀ b, s.allocated b ≠ none → ¬ (b < a ∧ a < b + s.heap.len b)) → mem a = s.heap.mem a) ∧
      s' = { s with heap := { s.heap with mem := mem } }

/-- Nothing has been allocated yet. -/
def Start (s : State) : Prop := s.heap.freep = 0 ∧ s.heap.obtained = [] ∧ s.allocated =
    fun _ => none

/-! ## What is to hold -/

/-- The memory that the system has given. -/
def Heap.memory (h : Heap) : Set Nat := {x | ∃ r ∈ h.obtained, r.addr ≤ x ∧ x < r.addr + r.bytes}

/-- The free list is the cycle of `base` and `l`, in the order of the addresses. -/
structure FreeList (base : Nat) (h : Heap) (l : List Nat) : Prop where
  cycle : Seg h.next base (base :: l) base
  sorted : (base :: l).Pairwise (· < ·)
  base_size : h.size base = 0

/-- The blocks that are free or allocated. -/
def blocks (l : List Nat) (allocated : Nat → Option Nat) : Set Nat :=
  {x | x ∈ l ∨ allocated x ≠ none}

theorem mem_blocks {l : List Nat} {allocated : Nat → Option Nat} {x : Nat} :
    x ∈ blocks l allocated ↔ x ∈ l ∨ allocated x ≠ none := Iff.rfl

/-- The free blocks `l` and the allocated blocks tile the memory from the system, and each
allocated block is as large as was asked for. -/
structure Tiled (base : Nat) (h : Heap) (l : List Nat) (allocated : Nat → Option Nat) : Prop extends
    FreeList base h l where
  disjoint : ∀ a ∈ l, allocated a = none
  tiles : Tiles h.len (blocks l allocated) h.memory
  large : ∀ b n, allocated b = some n → n + unit ≤ h.len b
  bounds : ∀ x ∈ h.memory, base + unit ≤ x ∧ x + 1 < 2 ^ 32

/-- The allocator's state between calls, with the free blocks `l`: no two of them touch. -/
structure Sound (base : Nat) (h : Heap) (l : List Nat) (allocated : Nat → Option Nat) : Prop extends
    Tiled base h l allocated where
  rover : h.freep ∈ base :: l
  apart : ∀ a ∈ l, ∀ b ∈ l, a + h.len a ≠ b

/-! ## Stores to headers -/

namespace Heap

variable (h : Heap) (a v x : Nat)

theorem next_setPtr : (h.setPtr a v).next x = if x = a then v else h.next x := by
  unfold setPtr next
  by_cases hx : x = a
  · simp [hx]
  · simp [hx]

@[simp] theorem next_setSize : (h.setSize a v).next x = h.next x := by
  unfold setSize next
  by_cases hx : x = a
  · simp [hx]
  · simp [hx]

@[simp] theorem size_setPtr : (h.setPtr a v).size x = h.size x := by
  unfold setPtr size
  by_cases hx : x = a
  · simp [hx]
  · simp [hx]

theorem size_setSize : (h.setSize a v).size x = if x = a then v else h.size x := by
  unfold setSize size
  by_cases hx : x = a
  · simp [hx]
  · simp [hx]

@[simp] theorem obtained_setPtr : (h.setPtr a v).obtained = h.obtained := rfl
@[simp] theorem obtained_setSize : (h.setSize a v).obtained = h.obtained := rfl
@[simp] theorem freep_setPtr : (h.setPtr a v).freep = h.freep := rfl
@[simp] theorem freep_setSize : (h.setSize a v).freep = h.freep := rfl

variable {h} {h' : Heap}

theorem ext_of (hnext : ∀ x, h.next x = h'.next x) (hsize : ∀ x, h.size x = h'.size x)
    (hfreep : h.freep = h'.freep) (hobtained : h.obtained = h'.obtained) : h = h' := by
  have hmem : h.mem = h'.mem := by
    funext x
    have hn := hnext x
    have hs := hsize x
    unfold next at hn
    unfold size at hs
    cases hm : h.mem x
    cases hm' : h'.mem x
    simp_all
  cases h
  cases h'
  simp_all

end Heap

open Heap (size_setSize next_setPtr size_setPtr next_setSize)

/-! ## `free` in three steps -/

/-- Put `bp` behind `p`. -/
def link (h : Heap) (p bp : Nat) : Heap := (h.setPtr bp (h.next p)).setPtr p bp

/-- Make the block behind `x` part of `x`. -/
def absorb (h : Heap) (x : Nat) : Heap :=
  (h.setSize x (h.size x + h.size (h.next x))).setPtr x (h.next (h.next x))

/-- The same if they touch. -/
def absorbIf (h : Heap) (x : Nat) : Heap := if x + h.len x = h.next x then absorb h x else h

/-- The three steps in their order. -/
def freeSteps (h : Heap) (p bp : Nat) : Heap :=
  { absorbIf (absorbIf (link h p bp) bp) p with freep := p }

theorem next_link {h : Heap} {p bp x : Nat} :
    (link h p bp).next x = if x = p then bp else if x = bp then h.next p else h.next x := by
  rw [link, next_setPtr, next_setPtr]

theorem size_link {h : Heap} {p bp x : Nat} : (link h p bp).size x = h.size x := by simp [link]

theorem next_absorb {h : Heap} {y x : Nat} :
    (absorb h y).next x = if x = y then h.next (h.next y) else h.next x := by
  rw [absorb, next_setPtr, next_setSize]

theorem size_absorb {h : Heap} {y x : Nat} :
    (absorb h y).size x = if x = y then h.size y + h.size (h.next y) else h.size x := by
  rw [absorb, size_setPtr, size_setSize]

theorem next_absorbIf_of_ne {h : Heap} {y x : Nat} (hx : x ≠ y) :
    (absorbIf h y).next x = h.next x := by
  unfold absorbIf
  split
  · rw [next_absorb, if_neg hx]
  · rfl

theorem size_absorbIf_of_ne {h : Heap} {y x : Nat} (hx : x ≠ y) :
    (absorbIf h y).size x = h.size x := by
  unfold absorbIf
  split
  · rw [size_absorb, if_neg hx]
  · rfl

theorem obtained_absorbIf {h : Heap} {x : Nat} : (absorbIf h x).obtained = h.obtained := by
  unfold absorbIf
  split <;> rfl

theorem obtained_freeSteps {h : Heap} {p bp : Nat} : (freeSteps h p bp).obtained = h.obtained := by
  show (absorbIf (absorbIf (link h p bp) bp) p).obtained = h.obtained
  rw [obtained_absorbIf, obtained_absorbIf]
  rfl

theorem size_freeSteps_of_ne {h : Heap} {p bp x : Nat} (hp : x ≠ p) (hbp : x ≠ bp) :
    (freeSteps h p bp).size x = h.size x := by
  show (absorbIf (absorbIf (link h p bp) bp) p).size x = h.size x
  rw [size_absorbIf_of_ne hp, size_absorbIf_of_ne hbp, size_link]

theorem stop_eq {h : Heap} {a : Nat} (ha : a + h.len a < 2 ^ 32) : h.stop a = a + h.len a :=
  Nat.mod_eq_of_lt ha

/-- `free` links the block in, and then makes it one with the next and with the one before. -/
theorem freeAfter_eq {h : Heap} {p bp : Nat} (hp : p < bp) (hn : h.next p ≠ bp)
    (hbp : bp + h.len bp < 2 ^ 32) (hpend : p + h.len p < 2 ^ 32)
    (hnend : h.next p + h.len (h.next p) < 2 ^ 32) : freeAfter h p bp = freeSteps h p bp := by
  have hsize : ∀ {x}, x + h.len x < 2 ^ 32 → h.size x < 2 ^ 29 := fun {x} hx => by
    unfold Heap.len unit at hx
    omega
  have hsbp := hsize hbp
  have hsp := hsize hpend
  have hsn := hsize hnend
  have hsum : (h.size bp + h.size (h.next p)) % 2 ^ 32 = h.size bp + h.size (h.next p) :=
    Nat.mod_eq_of_lt (by omega)
  -- the heap after the first `if`, and what it has in common with the second step
  let h1 := if h.stop bp = h.next p
    then (h.setSize bp ((h.size bp + h.size (h.next p)) % 2 ^ 32)).setPtr bp (h.next (h.next p))
    else h.setPtr bp (h.next p)
  let h2 := absorbIf (link h p bp) bp
  have hlink : bp + (link h p bp).len bp = (link h p bp).next bp ↔ h.stop bp = h.next p := by
    rw [Heap.len, size_link, next_link, if_neg hp.ne', if_pos rfl, stop_eq hbp, Heap.len]
  have hobtained : h2.obtained = h1.obtained := by
    simp only [h1, h2, absorbIf]
    split <;> split <;> rfl
  have hsize2 : ∀ x, h2.size x = h1.size x := fun x => by
    simp only [h1, h2, absorbIf, hlink]
    split
    · rw [size_absorb, size_link, size_link, size_link, next_link, if_neg hp.ne', if_pos rfl, hsum,
        size_setPtr, size_setSize]
    · rw [size_link, size_setPtr]
  have hnext2 : ∀ x, x ≠ p → h2.next x = h1.next x := fun x hx => by
    simp only [h1, h2, absorbIf, hlink]
    split
    · next htouch =>
      have hnp : h.next p ≠ p := fun heq => by
        rw [stop_eq hbp, heq] at htouch
        omega
      rw [next_absorb, next_link, next_link, if_neg hp.ne', if_pos rfl, next_link, if_neg hx,
        if_neg hnp, if_neg hn, next_setPtr, next_setSize]
      by_cases hxbp : x = bp <;> simp [hxbp]
    · rw [next_link, if_neg hx, next_setPtr]
  have hp2 : h2.next p = bp := by rw [next_absorbIf_of_ne hp.ne, next_link, if_pos rfl]
  -- the second `if`
  have hsp1 : h1.size p = h.size p := by rw [← hsize2, size_absorbIf_of_ne hp.ne, size_link]
  have hsbp1 : h1.size bp < 2 ^ 30 := by
    simp only [h1]
    split
    · rw [size_setPtr, size_setSize, if_pos rfl, hsum]
      omega
    · rw [size_setPtr]
      omega
  have hstop : h1.stop p = bp ↔ p + h2.len p = h2.next p := by
    rw [hp2, Heap.len, hsize2, hsp1, Heap.stop, hsp1, ← Heap.len, Nat.mod_eq_of_lt hpend]
  show ({ (if h1.stop p = bp then
      (h1.setSize p ((h1.size p + h1.size bp) % 2 ^ 32)).setPtr p (h1.next bp)
    else h1.setPtr p bp) with freep := p } : Heap) = { absorbIf h2 p with freep := p }
  unfold absorbIf
  simp only [hstop]
  split
  · refine Heap.ext_of (fun x => ?_) (fun x => ?_) rfl hobtained.symm
    · show (Heap.setPtr _ _ _).next x = (absorb h2 p).next x
      rw [next_absorb, next_setPtr, next_setSize, hp2, hnext2 bp hp.ne']
      by_cases hx : x = p
      · simp [hx]
      · simp [hx, hnext2 x hx]
    · show (Heap.setPtr _ _ _).size x = (absorb h2 p).size x
      rw [size_absorb, size_setPtr, size_setSize, hp2, hsize2, hsize2, hsize2,
        Nat.mod_eq_of_lt (by omega)]
  · refine Heap.ext_of (fun x => ?_) (fun x => ?_) rfl hobtained.symm
    · show (Heap.setPtr _ _ _).next x = h2.next x
      rw [next_setPtr]
      by_cases hx : x = p
      · simp [hx, hp2]
      · simp [hx, hnext2 x hx]
    · show (Heap.setPtr _ _ _).size x = h2.size x
      rw [size_setPtr, hsize2]

/-! ## The free list -/

section

variable {base : Nat} {h : Heap} {l : List Nat} {allocated : Nat → Option Nat}

/-- What follows a block: the next in the order of the addresses, or `base` behind the last. -/
theorem FreeList.next_eq (hl : FreeList base h l) {x : Nat} (hx : x ∈ base :: l) :
    (∃ l1 l2, base :: l = l1 ++ x :: h.next x :: l2) ∨
    (h.next x = base ∧ ∃ l1, base :: l = l1 ++ [x]) := by
  obtain ⟨l1, l2, heq⟩ := List.append_of_mem hx
  have hcycle := hl.cycle
  rw [heq] at hcycle
  obtain ⟨-, hrest⟩ := Seg.middle_iff.mp hcycle
  cases l2 with
  | nil => exact .inr ⟨hrest, l1, heq⟩
  | cons y l2 => exact .inl ⟨l1, l2, by rw [hrest.1]; exact heq⟩

/-- The block behind `x` is the first above it, if there is one. -/
theorem FreeList.next_spec (hl : FreeList base h l) {x : Nat} (hx : x ∈ base :: l) :
    (x < h.next x ∧ h.next x ∈ l ∧ ∀ z ∈ base :: l, z ≤ x ∨ h.next x ≤ z) ∨
      (h.next x = base ∧ ∀ z ∈ base :: l, z ≤ x) := by
  have hsorted := hl.sorted
  rcases hl.next_eq hx with ⟨l1, l2, heq⟩ | ⟨hbase, l1, heq⟩
  · left
    rw [heq] at hsorted
    obtain ⟨-, hpair, hbefore⟩ := pairwise_append.mp hsorted
    have hlt : x < h.next x := rel_of_pairwise_cons hpair mem_cons_self
    have hlow : base ≤ x := by
      rcases mem_cons.mp hx with rfl | hx
      · exact le_rfl
      · exact (rel_of_pairwise_cons hl.sorted hx).le
    refine ⟨hlt, ?_, fun z hz => ?_⟩
    · have hmem : h.next x ∈ base :: l := by rw [heq]; simp
      exact (mem_cons.mp hmem).resolve_left (by omega)
    · rw [heq] at hz
      rcases mem_append.mp hz with hz | hz
      · exact .inl (hbefore z hz x mem_cons_self).le
      · rcases mem_cons.mp hz with rfl | hz
        · exact .inl le_rfl
        · rcases mem_cons.mp hz with rfl | hz
          · exact .inr le_rfl
          · exact .inr (rel_of_pairwise_cons (List.pairwise_cons.mp hpair).2 hz).le
  · right
    refine ⟨hbase, fun z hz => ?_⟩
    rw [heq] at hz hsorted
    rcases mem_append.mp hz with hz | hz
    · exact ((pairwise_append.mp hsorted).2.2 z hz x mem_cons_self).le
    · rw [List.mem_singleton.mp hz]

/-- `p` is the last block of the list before the address `bp`. -/
structure Before (base : Nat) (l : List Nat) (bp p : Nat) : Prop where
  mem : p ∈ base :: l
  lt : p < bp
  last : ∀ z ∈ base :: l, z < bp → z ≤ p

/-- The list falls into what is before `bp`, up to `p`, and what is behind. -/
theorem FreeList.split (hl : FreeList base h l) {bp : Nat} (hbase : base < bp) (hbp : bp ∉ l) :
    ∃ p l1 l2, base :: l = l1 ++ p :: l2 ∧ Before base l bp p ∧ ∀ z ∈ l2, bp < z := by
  have hne : bp ∉ base :: l := fun hmem => (mem_cons.mp hmem).elim (fun heq => by omega) hbp
  have hsorted := hl.sorted
  have hparts : base :: l = (base :: l).takeWhile (· < bp) ++ (base :: l).dropWhile (· < bp) :=
    (List.takeWhile_append_dropWhile ..).symm
  have hbehind : ∀ z ∈ (base :: l).dropWhile (· < bp), bp < z := fun z hz => by
    -- the first is not below `bp`, and the others are above the first
    obtain ⟨y, r, hy⟩ := List.exists_cons_of_ne_nil (List.ne_nil_of_mem hz)
    have hybp : bp < y := by
      have hhead := List.head_dropWhile_not (fun x => decide (x < bp)) (l := base :: l)
        (by rw [hy]; simp)
      simp only [hy, List.head_cons, decide_eq_false_iff_not, not_lt] at hhead
      have hmem : y ∈ base :: l := by rw [hparts, hy]; simp
      exact lt_of_le_of_ne hhead fun heq => hne (heq ▸ hmem)
    rw [hparts, hy] at hsorted
    rw [hy] at hz
    rcases mem_cons.mp hz with rfl | hz
    · exact hybp
    · exact hybp.trans (rel_of_pairwise_cons (pairwise_append.mp hsorted).2.1 hz)
  rcases List.eq_nil_or_concat ((base :: l).takeWhile (· < bp)) with hnil | ⟨l1, p, hconcat⟩
  · simp [hbase] at hnil
  · rw [List.concat_eq_append] at hconcat
    have hall : ∀ z ∈ l1 ++ [p], z < bp := fun z hz => by
      rw [← hconcat] at hz
      simpa using List.mem_takeWhile_imp hz
    rw [hconcat, List.append_assoc, List.singleton_append] at hparts
    refine ⟨p, l1, _, hparts, ⟨by rw [hparts]; simp, hall p (by simp), fun z hz hlt => ?_⟩, hbehind⟩
    rw [hparts] at hz hsorted
    rcases mem_append.mp hz with hz | hz
    · exact ((pairwise_append.mp hsorted).2.2 z hz p mem_cons_self).le
    · rcases mem_cons.mp hz with rfl | hz
      · exact le_rfl
      · exact absurd (hbehind z hz) (by omega)

/-- The loop stops at the block before `bp`, -/
theorem FreeList.freeLoop_stop (hl : FreeList base h l) {bp p fuel : Nat} (hbp : bp ∉ l)
    (hp : Before base l bp p) : freeLoop h bp (fuel + 1) p = some p := by
  have hlt := hp.lt
  rw [freeLoop]
  rcases hl.next_spec hp.mem with ⟨hnext, hmem, -⟩ | ⟨hbase, hlast⟩
  · have hne : h.next p ≠ bp := fun heq => hbp (heq ▸ hmem)
    have hge : ¬ h.next p < bp := fun hn => by
      have := hp.last _ (mem_cons_of_mem base hmem) hn
      omega
    rw [if_pos ⟨hlt, by omega⟩]
  · have hle : h.next p ≤ p := hbase ▸ hlast base mem_cons_self
    split
    · rfl
    · rw [if_pos ⟨hle, .inl hlt⟩]

/-- and at no other. -/
theorem FreeList.freeLoop_next (hl : FreeList base h l) {bp p q fuel : Nat} (hbase : base < bp)
    (hp : Before base l bp p) (hq : q ∈ base :: l) (hqp : q ≠ p) :
    freeLoop h bp (fuel + 1) q = freeLoop h bp fuel (h.next q) := by
  have hplt := hp.lt
  have hlast : q < bp → q ≤ p := hp.last q hq
  rw [freeLoop]
  rcases hl.next_spec hq with ⟨hnext, -, hgap⟩ | ⟨hqbase, hall⟩
  · have := hgap p hp.mem
    rw [if_neg (by omega), if_neg (by omega)]
  · have := hall p hp.mem
    rw [if_neg (by omega), if_neg (by omega)]

/-- It walks up to the block before `bp`. -/
theorem FreeList.freeLoop_walk (hl : FreeList base h l) {bp p q fuel : Nat} {w : List Nat}
    (hbase : base < bp) (hbp : bp ∉ l) (hp : Before base l bp p) (hwalk : Seg h.next q w p)
    (hpw : p ∉ w) (hsub : ∀ x ∈ w, x ∈ base :: l) (hfuel : w.length < fuel) :
    freeLoop h bp fuel q = some p := by
  obtain ⟨fuel, rfl⟩ := Nat.exists_eq_add_one_of_ne_zero (Nat.ne_zero_of_lt hfuel)
  induction w generalizing q fuel with
  | nil =>
    cases hwalk
    exact hl.freeLoop_stop hbp hp
  | cons x w ih =>
    obtain ⟨rfl, hrest⟩ := hwalk
    obtain ⟨fuel, rfl⟩ := Nat.exists_eq_add_one_of_ne_zero (n := fuel) (by simp at hfuel; omega)
    rw [mem_cons, not_or] at hpw
    rw [hl.freeLoop_next hbase hp (hsub q mem_cons_self) (Ne.symm hpw.1)]
    exact ih hrest hpw.2 (fun x hx => hsub x (mem_cons_of_mem q hx)) fuel
      (by simp at hfuel; omega)

/-- The loop of `free` finds the block before `bp`, wherever it starts. -/
theorem FreeList.freeLoop_eq (hl : FreeList base h l) {bp p q : Nat} (hbase : base < bp)
    (hbp : bp ∉ l) (hp : Before base l bp p) (hq : q ∈ base :: l) :
    Returns (fun fuel => freeLoop h bp fuel q) p := by
  -- the cycle from `q`, up to `p`
  obtain ⟨l1, l2, heq⟩ := List.append_of_mem hq
  have hcycle := hl.cycle
  rw [heq] at hcycle
  have hperm : ∀ x, x ∈ q :: l2 ++ l1 ↔ x ∈ base :: l := fun x => by
    rw [heq]
    simp only [mem_append, mem_cons]
    grind
  obtain ⟨w, w', hw, hpw⟩ := List.eq_append_cons_of_mem ((hperm p).mpr hp.mem)
  have hwalk := hcycle.rotate
  rw [hw] at hwalk
  refine ⟨w.length + 1, fun fuel hfuel => ?_⟩
  refine hl.freeLoop_walk hbase hbp hp (Seg.middle_iff.mp hwalk).1 hpw
    (fun x hx => (hperm x).mp ?_) hfuel
  rw [hw]
  exact List.mem_append_left _ hx

/-! ## The steps of `free` -/

/-- A list that begins with the same blocks begins with `base`. -/
theorem exists_eq_cons {l1 m : List Nat} {x : Nat} (heq : base :: l = l1 ++ x :: m)
    (m' : List Nat) : ∃ l', base :: l' = l1 ++ x :: m' := by
  cases l1 with
  | nil =>
    obtain rfl := (List.cons.inj heq).1
    exact ⟨m', rfl⟩
  | cons y l1 =>
    obtain rfl := (List.cons.inj heq).1
    exact ⟨l1 ++ x :: m', rfl⟩

theorem FreeList.mem_iff (hl : FreeList base h l) {x : Nat} : x ∈ l ↔ x ∈ base :: l ∧ x ≠ base := by
  have hbase : ∀ y ∈ l, base < y := fun y hy => rel_of_pairwise_cons hl.sorted hy
  constructor
  · exact fun hx => ⟨mem_cons_of_mem base hx, (hbase x hx).ne'⟩
  · rintro ⟨hx, hne⟩
    exact (mem_cons.mp hx).resolve_left hne

theorem Heap.len_eq {h h' : Heap} {x y : Nat} (hs : h.size x = h'.size y) : h.len x = h'.len y := by
  rw [len, hs]
  rfl

/-- After `link` the block is free, and may touch its neighbours. -/
theorem Tiled.link (ht : Tiled base h l allocated) {l1 l2 : List Nat} {p bp n : Nat}
    (hbase : base < bp) (hbp : allocated bp = some n) (heq : base :: l = l1 ++ p :: l2)
    (hp : Before base l bp p) (hbehind : ∀ z ∈ l2, bp < z) :
    ∃ l', (∀ x, x ∈ l' ↔ x ∈ l ∨ x = bp) ∧
      Tiled base (link h p bp) l' (update allocated bp none) := by
  obtain ⟨l', heq'⟩ := exists_eq_cons heq (bp :: l2)
  have hplt := hp.lt
  have hsorted := ht.sorted
  have hcycle := ht.cycle
  rw [heq] at hsorted hcycle
  have hpair := pairwise_append.mp hsorted
  have hle : ∀ x ∈ l1, x < p := fun x hx => hpair.2.2 x hx p mem_cons_self
  have hgt : ∀ x ∈ l2, p < x := fun x hx => rel_of_pairwise_cons hpair.2.1 hx
  have hsorted' : (base :: l').Pairwise (· < ·) := by
    rw [heq', pairwise_append]
    refine ⟨hpair.1, ?_, fun x hx y hy => ?_⟩
    · rw [List.pairwise_cons, List.pairwise_cons]
      refine ⟨fun y hy => ?_, hbehind, (List.pairwise_cons.mp hpair.2.1).2⟩
      rcases mem_cons.mp hy with rfl | hy
      · exact hplt
      · exact hgt y hy
    · have := hle x hx
      rcases mem_cons.mp hy with rfl | hy
      · exact this
      · rcases mem_cons.mp hy with rfl | hy
        · omega
        · have := hgt y hy
          omega
  have hcycle' : Seg (Umalloc.link h p bp).next base (base :: l') base := by
    rw [heq']
    refine hcycle.insert (by rw [next_link, if_pos rfl])
      (by rw [next_link, if_neg hplt.ne', if_pos rfl]) fun x hx => ?_
    have hxp : x ≠ p ∧ x ≠ bp := by
      rcases mem_append.mp hx with hx | hx
      · have := hle x hx
        omega
      · have := hgt x hx
        have := hbehind x hx
        omega
    rw [next_link, if_neg hxp.1, if_neg hxp.2]
  have hlist : FreeList base (Umalloc.link h p bp) l' :=
    ⟨hcycle', hsorted', by rw [size_link]; exact ht.base_size⟩
  have hmem : ∀ x, x ∈ l' ↔ x ∈ l ∨ x = bp := fun x => by
    rw [hlist.mem_iff, ht.mem_iff, heq, heq']
    simp only [mem_append, mem_cons]
    have : x = bp → x ≠ base := by omega
    grind
  have hblocks : blocks l' (update allocated bp none) = blocks l allocated := by
    ext x
    rw [mem_blocks, mem_blocks, hmem]
    by_cases hx : x = bp
    · simp [hx, hbp]
    · simp [hx]
  refine ⟨l', hmem,
    { hlist with
      disjoint := fun a ha => ?_
      tiles := ?_
      large := fun b k hb => ?_
      bounds := ht.bounds }⟩
  · by_cases hab : a = bp
    · rw [hab, update_self]
    · rw [update_of_ne hab]
      exact ht.disjoint a (((hmem a).mp ha).resolve_right hab)
  · rw [hblocks]
    exact ht.tiles.congr fun b _ => Heap.len_eq size_link
  · by_cases hbbp : b = bp
    · rw [hbbp, update_self] at hb
      cases hb
    · rw [update_of_ne hbbp] at hb
      rw [Heap.len_eq size_link]
      exact ht.large b k hb

/-- The block `y` behind `x` is taken off the list. -/
theorem FreeList.remove (hl : FreeList base h l) (h' : Heap) {l1 l2 : List Nat} {x y : Nat}
    (heq : base :: l = l1 ++ x :: y :: l2) (hx : h'.next x = h.next y)
    (hother : ∀ z, z ≠ x → h'.next z = h.next z) (hbase : h'.size base = 0) :
    ∃ l', FreeList base h' l' ∧ ∀ z, z ∈ l' ↔ z ∈ l ∧ z ≠ y := by
  obtain ⟨l', heq'⟩ := exists_eq_cons heq l2
  have hsorted := hl.sorted
  have hcycle := hl.cycle
  rw [heq] at hsorted hcycle
  have hnodup : (l1 ++ x :: y :: l2).Nodup := hsorted.imp fun hlt => Nat.ne_of_lt hlt
  have hcycle' : Seg h'.next base (base :: l') base := by
    rw [heq']
    refine hcycle.remove hx fun z hz => hother z ?_
    rintro rfl
    have := List.nodup_middle.mp hnodup
    simp only [List.nodup_cons, mem_append, mem_cons] at this hz
    grind
  have hsorted' : (base :: l').Pairwise (· < ·) := by
    rw [heq']
    exact hsorted.sublist ((List.Sublist.refl l1).append
      (((List.Sublist.refl l2).cons y).cons_cons x))
  have hlist : FreeList base h' l' := ⟨hcycle', hsorted', hbase⟩
  refine ⟨l', hlist, fun z => ?_⟩
  have hgone : z = y → z ∉ l1 ++ x :: l2 := by
    rintro rfl
    have := List.nodup_middle.mp (show (l1 ++ [x] ++ z :: l2).Nodup by simpa using hnodup)
    simpa using (List.nodup_cons.mp this).1
  rw [hlist.mem_iff, hl.mem_iff, heq, heq']
  simp only [mem_append, mem_cons] at hgone ⊢
  grind

/-- Two free blocks that touch are made one. -/
theorem Tiled.absorb (ht : Tiled base h l allocated) {l1 l2 : List Nat} {x : Nat}
    (heq : base :: l = l1 ++ x :: h.next x :: l2) (htouch : x + h.len x = h.next x) :
    ∃ l', x ∈ l' ∧ (∀ y, y ∈ l' ↔ y ∈ l ∧ y ≠ h.next x) ∧ Tiled base (absorb h x) l' allocated := by
  have hsorted := ht.sorted
  rw [heq] at hsorted
  have hlt : x < h.next x := rel_of_pairwise_cons (pairwise_append.mp hsorted).2.1
    mem_cons_self
  -- `base` is empty, so it touches nothing
  have hxbase : x ≠ base := fun hx => by
    rw [Heap.len, hx, ht.base_size, ← hx] at htouch
    omega
  have hxl : x ∈ l := ht.mem_iff.mpr ⟨by rw [heq]; simp, hxbase⟩
  have hnextl : h.next x ∈ l := ht.mem_iff.mpr ⟨by rw [heq]; simp, fun hb => by
    have := rel_of_pairwise_cons ht.sorted hxl
    omega⟩
  have hsize : ∀ y, y ≠ x → (Umalloc.absorb h x).size y = h.size y :=
    fun y hy => by rw [size_absorb, if_neg hy]
  obtain ⟨l', hlist, hmem⟩ := ht.remove (Umalloc.absorb h x) heq (by rw [next_absorb, if_pos rfl])
    (fun z hz => by rw [next_absorb, if_neg hz])
    (by rw [hsize base (Ne.symm hxbase)]; exact ht.base_size)
  have hfree : ∀ {b k}, allocated b = some k → b ≠ x := fun hb hbx => by
    rw [hbx, ht.disjoint x hxl] at hb
    cases hb
  refine ⟨l', (hmem x).mpr ⟨hxl, hlt.ne⟩, hmem, { hlist with
    disjoint := fun a ha => ?_, tiles := ?_, large := fun b k hb => ?_, bounds := ht.bounds }⟩
  · exact ht.disjoint a ((hmem a).mp ha).1
  · refine ht.tiles.merge (a := x) (b := h.next x) (.inl hxl) (.inl hnextl) htouch (fun y => ?_) ?_
      fun y _ hy => ?_
    · rw [mem_blocks, mem_blocks, hmem]
      have : y = h.next x → allocated y = none := fun hy => hy ▸ ht.disjoint _ hnextl
      grind
    · rw [Heap.len, size_absorb, if_pos rfl, Nat.mul_add]
      rfl
    · exact Heap.len_eq (hsize y hy)
  · rw [Heap.len_eq (hsize b (hfree hb))]
    exact ht.large b k hb

/-- What is known after `absorbIf`, of the list as it was. -/
structure Absorbed (base : Nat) (h : Heap) (x : Nat) (l l' : List Nat) : Prop where
  mem : x ∈ base :: l'
  sub : ∀ y ∈ l', y ∈ l
  keep : ∀ y ∈ l, y ≠ h.next x → y ∈ l'
  touch : ∀ a ∈ l', ∀ b ∈ l', a + (absorbIf h x).len a = b →
    (a + h.len a = b ∧ ¬ (a = x ∧ b = h.next x)) ∨
    (a = x ∧ h.next x ∈ l ∧ h.next x + h.len (h.next x) = b)
  large : ∀ a ∈ l, ∃ b ∈ l', h.size a ≤ (absorbIf h x).size b

theorem FreeList.base_le (hl : FreeList base h l) {x : Nat} (hx : x ∈ base :: l) : base ≤ x := by
  rcases mem_cons.mp hx with rfl | hx
  · exact le_rfl
  · exact (rel_of_pairwise_cons hl.sorted hx).le

/-- A block that touches the next one is not the last. -/
theorem FreeList.eq_of_touch (hl : FreeList base h l) (hne : l ≠ []) {x : Nat} (hx : x ∈ base :: l)
    (htouch : x + h.len x = h.next x) :
    h.next x ∈ l ∧ ∃ l1 l2, base :: l = l1 ++ x :: h.next x :: l2 := by
  obtain ⟨y, hy⟩ := List.exists_mem_of_ne_nil l hne
  have hlt := rel_of_pairwise_cons hl.sorted hy
  have hle := hl.base_le hx
  rcases hl.next_spec hx with ⟨hgt, hmem, -⟩ | ⟨hbase, hlast⟩
  · exact ⟨hmem, (hl.next_eq hx).resolve_right fun hb => by omega⟩
  · have := hlast y (mem_cons_of_mem base hy)
    omega

theorem Tiled.absorbIf (ht : Tiled base h l allocated) (hne : l ≠ []) {x : Nat}
    (hx : x ∈ base :: l) : ∃ l', Tiled base (absorbIf h x) l' allocated ∧
    Absorbed base h x l l' := by
  by_cases htouch : x + h.len x = h.next x
  · have habsorb : Umalloc.absorbIf h x = Umalloc.absorb h x := if_pos htouch
    obtain ⟨hnext, l1, l2, heq⟩ := ht.eq_of_touch hne hx htouch
    obtain ⟨l', hxl', hmem, ht'⟩ := ht.absorb heq htouch
    rw [habsorb]
    refine ⟨l', ht', mem_cons_of_mem base hxl', fun y hy => ((hmem y).mp hy).1,
      fun y hy hne => (hmem y).mpr ⟨hy, hne⟩, fun a _ b _ hab => ?_, fun a ha => ?_⟩
    · rw [habsorb, Heap.len, size_absorb] at hab
      by_cases hax : a = x
      · rw [if_pos hax, hax, Nat.mul_add, ← Nat.add_assoc] at hab
        exact .inr ⟨hax, hnext, by rw [← hab, ← htouch]; rfl⟩
      · rw [if_neg hax] at hab
        exact .inl ⟨hab, fun hb => hax hb.1⟩
    · rw [habsorb]
      by_cases han : a = h.next x
      · exact ⟨x, hxl', by rw [size_absorb, if_pos rfl, han]; omega⟩
      · refine ⟨a, (hmem a).mpr ⟨ha, han⟩, ?_⟩
        rw [size_absorb]
        split
        · next hax => rw [hax]; omega
        · exact le_rfl
  · have habsorb : Umalloc.absorbIf h x = h := if_neg htouch
    rw [habsorb]
    refine ⟨l, ht, hx, fun y hy => hy, fun y hy _ => hy, fun a _ b _ hab => ?_, fun a ha =>
      ⟨a, ha, by rw [habsorb]⟩⟩
    rw [habsorb] at hab
    refine .inl ⟨hab, ?_⟩
    rintro ⟨rfl, rfl⟩
    exact htouch hab

/-! ## `free` -/

theorem Tiled.mem_memory (ht : Tiled base h l allocated) {b : Nat} (hb : b ∈ blocks l allocated) :
    b ∈ h.memory := by
  have := ht.tiles.pos b hb
  exact (ht.tiles.cover b).mp ⟨b, hb, le_rfl, by omega⟩

theorem Tiled.base_lt (ht : Tiled base h l allocated) {b : Nat} (hb : b ∈ blocks l allocated) :
    base < b := by
  have := (ht.bounds b (ht.mem_memory hb)).1
  unfold unit at this
  omega

/-- Blocks end below the end of the address space. -/
theorem Tiled.stop_lt (ht : Tiled base h l allocated) {b : Nat} (hb : b ∈ blocks l allocated) :
    b + h.len b < 2 ^ 32 := by
  have := (ht.bounds _ (ht.tiles.last_mem hb)).2
  have := ht.tiles.pos b hb
  omega

theorem Tiled.stop_lt' (ht : Tiled base h l allocated) {b x : Nat} (hb : b ∈ blocks l allocated)
    (hx : x ∈ base :: l) : x + h.len x < 2 ^ 32 := by
  rcases mem_cons.mp hx with rfl | hx
  · have := ht.base_lt hb
    have := ht.stop_lt hb
    rw [Heap.len, ht.base_size]
    omega
  · exact ht.stop_lt (.inl hx)

theorem Tiled.setFreep (ht : Tiled base h l allocated) (p : Nat) :
    Tiled base { h with freep := p } l allocated where
  cycle := ht.cycle
  sorted := ht.sorted
  base_size := ht.base_size
  disjoint := ht.disjoint
  tiles := ht.tiles
  large := ht.large
  bounds := ht.bounds

theorem FreeList.next_mem (hl : FreeList base h l) {x : Nat} (hx : x ∈ base :: l) :
    h.next x ∈ base :: l := by
  rcases hl.next_spec hx with ⟨-, hmem, -⟩ | ⟨hbase, -⟩
  · exact mem_cons_of_mem base hmem
  · rw [hbase]
    exact mem_cons_self

/-- Behind `link`, the block that was freed may touch its neighbours, and that is all. -/
theorem Sound.touch_link (hs : Sound base h l allocated) {l1 : List Nat} {p bp : Nat}
    (hp : Before base l bp p) (ht : Tiled base (link h p bp) l1 (update allocated bp none))
    (hmem : ∀ x, x ∈ l1 ↔ x ∈ l ∨ x = bp) : ∀ a ∈ l1, ∀ b ∈ l1, a + (link h p bp).len a = b →
    (a = bp ∧ b = (link h p bp).next bp) ∨ (a = p ∧ b = bp) := by
  intro a ha b hb htouch
  have hpos := ht.tiles.pos a (.inl ha)
  have hbp : bp ∈ l1 := (hmem bp).mpr (.inr rfl)
  have hapart : ∀ x ∈ l1, ∀ y ∈ l1, x < y → x + (link h p bp).len x ≤ y := fun x hx y hy =>
    ht.tiles.apart x (.inl hx) y (.inl hy)
  rcases (hmem a).mp ha with hal | rfl
  · rcases (hmem b).mp hb with hbl | rfl
    · rw [Heap.len_eq size_link] at htouch
      exact absurd htouch (hs.apart a hal b hbl)
    · -- `a` is before `b`, and nothing between them
      have hle := hp.last a (mem_cons_of_mem base hal) (by omega)
      have hbase := rel_of_pairwise_cons hs.sorted hal
      have hpl : p ∈ l := (mem_cons.mp hp.mem).resolve_left (by omega)
      have hlt := hp.lt
      refine .inr ⟨le_antisymm hle (not_lt.mp fun hap => ?_), rfl⟩
      have := hapart a ha p ((hmem p).mpr (.inl hpl)) hap
      omega
  · left
    refine ⟨rfl, ?_⟩
    rcases ht.next_spec (mem_cons_of_mem base ha) with ⟨hlt, hnext, hgap⟩ | ⟨-, hlast⟩
    · have := hapart a ha _ hnext hlt
      have := hgap b (mem_cons_of_mem base hb)
      omega
    · have := hlast b (mem_cons_of_mem base hb)
      omega

/-- What `free` does once it has found the block `p` before `bp`. -/
theorem Sound.freeAfter (hs : Sound base h l allocated) {p bp n : Nat} (hal : allocated bp = some n)
    (hbp : bp ∉ l) (hp : Before base l bp p) {l1 l2 : List Nat} (heq : base :: l = l1 ++ p :: l2)
    (hbehind : ∀ z ∈ l2, bp < z) :
    ∃ l', Sound base (freeSteps h p bp) l' (update allocated bp none) ∧
      ∃ a ∈ l', h.size bp ≤ (freeSteps h p bp).size a := by
  have hbase : base < bp := hs.base_lt (.inr (by simp [hal]))
  have hplt := hp.lt
  have hpnext : h.next p = p → p = base := fun heq => by
    rcases hs.next_spec hp.mem with ⟨hlt, -⟩ | ⟨hpb, -⟩ <;> omega
  have hnbp : (link h p bp).next bp = h.next p := by rw [next_link, if_neg hplt.ne', if_pos rfl]
  obtain ⟨m1, hm1, ht1⟩ := hs.link hbase hal heq hp hbehind
  have htouch1 := hs.touch_link hp ht1 hm1
  have hbp1 : bp ∈ m1 := (hm1 bp).mpr (.inr rfl)
  have hbase1 : base ∉ m1 := fun hb => (ht1.mem_iff.mp hb).2 rfl
  -- with the next
  obtain ⟨m2, ht2, ha2⟩ := ht1.absorbIf (List.ne_nil_of_mem hbp1) (mem_cons_of_mem base hbp1)
  have hbp2 : bp ∈ m2 := (mem_cons.mp ha2.mem).resolve_left hbase.ne'
  have htouch2 : ∀ a ∈ m2, ∀ b ∈ m2, a + (absorbIf (link h p bp) bp).len a = b →
      a = p ∧ b = bp := by
    intro a ha b hb hab
    rcases ha2.touch a ha b hb hab with ⟨hab, hne⟩ | ⟨-, hnext, hab⟩
    · exact (htouch1 a (ha2.sub a ha) b (ha2.sub b hb) hab).resolve_left hne
    · rcases htouch1 _ hnext b (ha2.sub b hb) hab with ⟨hbad, -⟩ | ⟨hbad, -⟩
      · rw [hnbp] at hbad
        exact absurd (hs.next_mem hp.mem) (by rw [hbad]; simp [hbp, hbase.ne'])
      · rw [hbad] at hnext
        rw [hnbp] at hbad
        exact absurd (hpnext hbad ▸ hnext) hbase1
  have hp2 : p ∈ base :: m2 := by
    rcases mem_cons.mp hp.mem with rfl | hpl
    · exact mem_cons_self
    · refine mem_cons_of_mem base (ha2.keep p ((hm1 p).mpr (.inl hpl)) fun heq => ?_)
      rw [hnbp] at heq
      exact absurd (hpnext heq.symm) (hs.mem_iff.mp hpl).2
  have hnp : (absorbIf (link h p bp) bp).next p = bp := by
    rw [next_absorbIf_of_ne hplt.ne, next_link, if_pos rfl]
  -- with the one before
  obtain ⟨m3, ht3, ha3⟩ := ht2.absorbIf (List.ne_nil_of_mem hbp2) hp2
  refine ⟨m3, { ht3.setFreep p with rover := ha3.mem, apart := fun a ha b hb hab => ?_ }, ?_⟩
  · rcases ha3.touch a ha b hb hab with ⟨hab, hne⟩ | ⟨-, hnext, hab⟩
    · rw [hnp] at hne
      exact hne (htouch2 a (ha3.sub a ha) b (ha3.sub b hb) hab)
    · rw [hnp] at hnext hab
      have := (htouch2 bp hnext b (ha3.sub b hb) hab).1
      omega
  · obtain ⟨b, hb, hle⟩ := ha2.large bp hbp1
    obtain ⟨c, hc, hle'⟩ := ha3.large b hb
    rw [size_link] at hle
    exact ⟨c, hc, hle.trans hle'⟩

/-- `free` returns, and the allocator is sound again without the block. -/
theorem Sound.free (hs : Sound base h l allocated) (ap : Nat) {n : Nat}
    (hal : allocated (ap - unit) = some n) : ∃ h' l', Returns (fun fuel => free fuel h ap) h' ∧
    Sound base h' l' (update allocated (ap - unit) none) ∧
      h'.obtained = h.obtained ∧ (∀ b, b ≠ ap - unit → allocated b ≠ none → h'.len b = h.len b) ∧
      ∃ a ∈ l', h.size (ap - unit) ≤ h'.size a := by
  have hblock : ap - unit ∈ blocks l allocated := .inr (by simp [hal])
  have hbase := hs.base_lt hblock
  have hbp : ap - unit ∉ l := fun hmem => by
    rw [hs.disjoint _ hmem] at hal
    cases hal
  obtain ⟨p, l1, l2, heq, hp, hbehind⟩ := hs.split hbase hbp
  obtain ⟨l', hsound, hlarge⟩ := hs.freeAfter hal hbp hp heq hbehind
  have hnext := hs.next_mem hp.mem
  have hafter := freeAfter_eq hp.lt (fun hn => (mem_cons.mp (hn ▸ hnext)).elim hbase.ne' hbp)
    (hs.stop_lt hblock) (hs.stop_lt' hblock hp.mem) (hs.stop_lt' hblock hnext)
  refine ⟨freeSteps h p (ap - unit), l', ?_, hsound, obtained_freeSteps,
    fun b hb hbal => ?_, hlarge⟩
  · obtain ⟨N, hN⟩ := hs.freeLoop_eq hbase hbp hp hs.rover
    refine ⟨N, fun fuel hfuel => ?_⟩
    have hloop : freeLoop h (ap - unit) fuel h.freep = some p := hN fuel hfuel
    show Umalloc.free fuel h ap = _
    rw [Umalloc.free, hloop, Option.map_some, hafter]
  · have hbp' : b ≠ p := fun heq => by
      have hbb := hs.base_lt (b := b) (.inr hbal)
      rcases mem_cons.mp hp.mem with hpb | hpl
      · omega
      · exact hbal (heq ▸ hs.disjoint p hpl)
    exact Heap.len_eq (size_freeSteps_of_ne hbp' hb)

/-! ## `malloc` -/

/-- New memory is a block that can be freed. -/
theorem Sound.grow (hs : Sound base h l allocated) {a nu : Nat} (hnu : 0 < nu)
    (hbase : base + unit ≤ a) (hend : a + nu * unit < 2 ^ 32)
    (hfresh : ∀ r ∈ h.obtained, r.addr + r.bytes ≤ a) :
    allocated a = none ∧
      Sound base (Heap.setSize { h with obtained := ⟨a, nu * unit⟩ :: h.obtained } a nu) l
        (update allocated a (some 0)) := by
  have hbelow : ∀ x ∈ h.memory, x < a := by
    rintro x ⟨r, hr, -, hx⟩
    have := hfresh r hr
    omega
  have hnew : a ∉ blocks l allocated := fun ha => lt_irrefl a (hbelow a (hs.mem_memory ha))
  rw [mem_blocks, not_or, not_not] at hnew
  have hsize : ∀ x, x ≠ a → (Heap.setSize { h with obtained := ⟨a, nu * unit⟩ :: h.obtained } a
      nu).size x = h.size x :=
    fun x hx => by rw [size_setSize, if_neg hx]; rfl
  have hne : ∀ x ∈ l, x ≠ a := fun x hx hxa => hnew.1 (hxa ▸ hx)
  have hmemory : ∀ x, x ∈ (Heap.setSize { h with obtained := ⟨a, nu * unit⟩ :: h.obtained }
      a nu).memory ↔ x ∈ h.memory ∨ (a ≤ x ∧ x < a + nu * unit) := fun x => by
    refine ⟨?_, ?_⟩
    · rintro ⟨r, hr, hx⟩
      rcases mem_cons.mp hr with rfl | hr
      · exact .inr hx
      · exact .inl ⟨r, hr, hx⟩
    · rintro (⟨r, hr, hx⟩ | hx)
      · exact ⟨r, mem_cons_of_mem _ hr, hx⟩
      · exact ⟨_, mem_cons_self, hx⟩
  have hcycle := hs.cycle.congr fun b _ =>
    next_setSize { h with obtained := ⟨a, nu * unit⟩ :: h.obtained } a nu b
  refine ⟨hnew.2, ⟨⟨⟨hcycle, hs.sorted, ?_⟩, fun x hx => ?_, ?_, fun b k hb => ?_, fun x hx => ?_⟩,
    hs.rover, fun x hx y hy => ?_⟩⟩
  · rw [hsize base (by unfold unit at hbase; omega)]
    exact hs.base_size
  · rw [update_of_ne (hne x hx)]
    exact hs.disjoint x hx
  · refine hs.tiles.grow (k := nu * unit) (by unfold unit; omega) hbelow (fun x => ?_) hmemory ?_
      fun x hx => ?_
    · rw [mem_blocks, mem_blocks]
      by_cases hxa : x = a
      · simp [hxa]
      · simp [hxa]
    · rw [Heap.len, size_setSize, if_pos rfl, Nat.mul_comm]
    · refine Heap.len_eq (hsize x ?_)
      rintro rfl
      exact hx.elim hnew.1 fun hal => hal hnew.2
  · by_cases hba : b = a
    · rw [hba, update_self, Option.some.injEq] at hb
      rw [← hb, Heap.len, hba, size_setSize, if_pos rfl]
      unfold unit
      omega
    · rw [update_of_ne hba] at hb
      rw [Heap.len_eq (hsize b hba)]
      exact hs.large b k hb
  · rcases (hmemory x).mp hx with hx | hx
    · exact hs.bounds x hx
    · omega
  · rw [Heap.len_eq (hsize x (hne x hx))]
    exact hs.apart x hx y hy

/-- What `malloc` gives: the block of the new header `b`, and the other allocated blocks are as
they were. -/
structure Allocates (base : Nat) (h : Heap) (allocated : Nat → Option Nat) (nbytes : Nat)
    (h' : Heap) (b : Nat) : Prop where
  sound : ∃ l, Sound base h' l (update allocated b (some nbytes))
  new : allocated b = none
  frame : ∀ b, allocated b ≠ none → h'.len b = h.len b

/-- A block of the size that is needed is taken off the list. -/
theorem Sound.takeWhole (hs : Sound base h l allocated) {q x nbytes : Nat} (hq : q ∈ base :: l)
    (hx : h.next q = x) (hxl : x ∈ l) (hunits : nbytes + unit ≤ h.len x) :
    Allocates base h allocated nbytes { h.setPtr q (h.next x) with freep := q } x := by
  have hbase := rel_of_pairwise_cons hs.sorted hxl
  obtain ⟨l1, l2, heq⟩ := (hs.next_eq hq).resolve_right fun hb => by omega
  rw [hx] at heq
  have hsorted := hs.sorted
  rw [heq] at hsorted
  have hlt : q < x := rel_of_pairwise_cons (pairwise_append.mp hsorted).2.1
    mem_cons_self
  obtain ⟨l', hlist, hmem⟩ := hs.remove { h.setPtr q (h.next x) with freep := q } heq
    ((next_setPtr h q _ q).trans (if_pos rfl))
    (fun z hz => (next_setPtr h q _ z).trans (if_neg hz))
    ((size_setPtr ..).trans hs.base_size)
  have hlen : ∀ b, Heap.len { h.setPtr q (h.next x) with freep := q } b = h.len b := fun b =>
    Heap.len_eq (size_setPtr ..)
  refine ⟨⟨l', ⟨⟨hlist, fun a ha => ?_, ?_, fun b k hb => ?_, hs.bounds⟩, ?_, fun a ha b hb => ?_⟩⟩,
    hs.disjoint x hxl, fun b _ => hlen b⟩
  · rw [update_of_ne ((hmem a).mp ha).2]
    exact hs.disjoint a ((hmem a).mp ha).1
  · have hblocks : blocks l' (update allocated x (some nbytes)) = blocks l allocated := by
      ext y
      rw [mem_blocks, mem_blocks, hmem]
      by_cases hy : y = x
      · simp [hy, hxl]
      · simp [hy]
    rw [hblocks]
    exact hs.tiles.congr fun b _ => hlen b
  · rw [hlen]
    by_cases hbx : b = x
    · rw [hbx, update_self, Option.some.injEq] at hb
      rw [← hb, hbx]
      exact hunits
    · rw [update_of_ne hbx] at hb
      exact hs.large b k hb
  · rcases mem_cons.mp hq with rfl | hq
    · exact mem_cons_self
    · exact mem_cons_of_mem base ((hmem q).mpr ⟨hq, hlt.ne⟩)
  · rw [hlen]
    exact hs.apart a ((hmem a).mp ha).1 b ((hmem b).mp hb).1

/-- The end of a larger block becomes a block of its own. -/
theorem Sound.takeEnd (hs : Sound base h l allocated) {q x b nbytes nunits : Nat}
    (hq : q ∈ base :: l) (hxl : x ∈ l) (hsize : nunits < h.size x)
    (hunits : nbytes + unit ≤ unit * nunits) (hb : b = x + unit * (h.size x - nunits)) :
    Allocates base h allocated nbytes
      { (h.setSize x (h.size x - nunits)).setSize b nunits with freep := q } b := by
  have hbase := rel_of_pairwise_cons hs.sorted hxl
  have hinside : x < b ∧ b < x + h.len x := by
    unfold Heap.len
    unfold unit at *
    omega
  have hnew : b ∉ blocks l allocated := fun hmem => by
    have := hs.tiles.apart x (.inl hxl) b hmem hinside.1
    omega
  rw [mem_blocks, not_or, not_not] at hnew
  let h' : Heap := { (h.setSize x (h.size x - nunits)).setSize b nunits with freep := q }
  have hsizeb : h'.size b = nunits := (size_setSize ..).trans (if_pos rfl)
  have hsizex : h'.size x = h.size x - nunits := by
    refine (size_setSize ..).trans ?_
    rw [if_neg hinside.1.ne, size_setSize, if_pos rfl]
  have hsizeo : ∀ y, y ≠ b → y ≠ x → h'.size y = h.size y := fun y hyb hyx => by
    refine (size_setSize ..).trans ?_
    rw [if_neg hyb, size_setSize, if_neg hyx]
  have hneb : ∀ y ∈ l, y ≠ b := fun y hy hyb => hnew.1 (hyb ▸ hy)
  have hal : ∀ y, allocated y ≠ none → y ≠ b ∧ y ≠ x := fun y hy =>
    ⟨fun hyb => hy (hyb ▸ hnew.2), fun hyx => hy (hyx ▸ hs.disjoint x hxl)⟩
  have hcycle : Seg h'.next base (base :: l) base := hs.cycle.congr fun y _ =>
    (next_setSize ..).trans (next_setSize ..)
  refine ⟨⟨l, ⟨⟨⟨hcycle, hs.sorted, ?_⟩, fun a ha => ?_, ?_, fun y k hy => ?_, hs.bounds⟩, hq,
    fun y hy z hz => ?_⟩⟩, hnew.2, fun y hy => Heap.len_eq (hsizeo y (hal y hy).1 (hal y hy).2)⟩
  · rw [← hs.base_size]
    exact hsizeo base (by omega) (by omega)
  · rw [update_of_ne (hneb a ha)]
    exact hs.disjoint a ha
  · refine hs.tiles.split (a := x) (b := b) (k := unit * nunits) (.inl hxl) ?_ ?_ ?_
      (fun y => ?_) ?_ ?_ fun y hy hyx => ?_
    · unfold unit at *
      omega
    · unfold Heap.len unit
      omega
    · rw [hb, Heap.len, Nat.mul_sub]
    · rw [mem_blocks, mem_blocks]
      by_cases hyb : y = b
      · simp [hyb]
      · simp [hyb]
    · show unit * h'.size x = _
      rw [hsizex, Nat.mul_sub]
      rfl
    · show unit * h'.size b = _
      rw [hsizeb]
    · refine Heap.len_eq (hsizeo y ?_ hyx)
      rintro rfl
      exact hy.elim hnew.1 fun hal => hal hnew.2
  · show k + unit ≤ unit * h'.size y
    by_cases hyb : y = b
    · rw [hyb, update_self, Option.some.injEq] at hy
      rw [← hy, hyb, hsizeb]
      exact hunits
    · rw [update_of_ne hyb] at hy
      obtain ⟨hyb, hyx⟩ := hal y (by simp [hy])
      rw [hsizeo y hyb hyx]
      exact hs.large y k hy
  · show y + unit * h'.size y ≠ z
    by_cases hyx : y = x
    · rw [hyx, hsizex, ← hb]
      exact Ne.symm (hneb z hz)
    · rw [hsizeo y (hneb y hy) hyx]
      exact hs.apart y hy z hz

/-- A block that is large enough is taken from the free list, or its end is. -/
theorem Sound.take (hs : Sound base h l allocated) {q x nbytes nunits : Nat} (hq : q ∈ base :: l)
    (hx : h.next q = x) (hsize : nunits ≤ h.size x) (hunits : nbytes + unit ≤ unit * nunits) :
    ∃ b, (take h nunits q x).2 = b + unit ∧
      Allocates base h allocated nbytes (take h nunits q x).1 b := by
  have hxbase : x ≠ base := by
    rintro rfl
    rw [hs.base_size] at hsize
    unfold unit at hunits
    omega
  have hxl : x ∈ l := hs.mem_iff.mpr ⟨hx ▸ hs.next_mem hq, hxbase⟩
  unfold Umalloc.take
  split
  · next heq => exact ⟨x, rfl, hs.takeWhole hq hx hxl (by rw [Heap.len, heq]; exact hunits)⟩
  · next hne =>
    have hlt : nunits < h.size x := lt_of_le_of_ne hsize (Ne.symm hne)
    have hstop : (h.setSize x (h.size x - nunits)).stop x = x + unit * (h.size x - nunits) := by
      have := hs.stop_lt (b := x) (.inl hxl)
      rw [Heap.stop, size_setSize, if_pos rfl]
      refine Nat.mod_eq_of_lt (lt_of_le_of_lt ?_ this)
      exact Nat.add_le_add_left (Nat.mul_le_mul_left unit (Nat.sub_le ..)) x
    simp only [hstop]
    exact ⟨x + unit * (h.size x - nunits), rfl, hs.takeEnd hq hxl hlt hunits rfl⟩

/-- A loop that goes along the free list until a block has `nunits` and is then `take`n, or until
it has been all around at `freep` and goes on with `more`. -/
def Rover {β : Type} (h : Heap) (nunits : Nat) (take : Nat → Nat → β) (more : Nat → Option β)
    (loop : Nat → Nat → Nat → Option β) : Prop :=
  ∀ fuel q p, loop (fuel + 1) q p =
    if nunits ≤ h.size p then some (take q p) else if p = h.freep then more fuel else loop
    fuel p (h.next p)

namespace Rover

variable {β : Type} {nunits : Nat} {take : Nat → Nat → β} {more : Nat → Option β}
  {loop : Nat → Nat → Nat → Option β}

theorem take_eq (hloop : Rover h nunits take more loop) {q p fuel : Nat} (hsize : nunits ≤ h.size p)
    (hfuel : 0 < fuel) : loop fuel q p = some (take q p) := by
  obtain ⟨fuel, rfl⟩ := Nat.exists_eq_add_one_of_ne_zero hfuel.ne'
  rw [hloop, if_pos hsize]

/-- The loop takes a block, or it comes to `freep` and there is none. -/
theorem walk (hloop : Rover h nunits take more loop) {q p z : Nat} {w : List Nat}
    (hwalk : Seg h.next p (w ++ [h.freep]) z) (hw : h.freep ∉ w) (hq : h.next q = p) :
    (∃ q' ∈ q :: w, nunits ≤ h.size (h.next q') ∧
        ∀ fuel, w.length < fuel → loop fuel q p = some (take q' (h.next q'))) ∨
      (∀ x ∈ w ++ [h.freep], h.size x < nunits) ∧ ∀ fuel, loop (fuel + w.length + 1) q p =
          more fuel := by
  induction w generalizing q p with
  | nil =>
    obtain ⟨rfl, -⟩ := hwalk
    by_cases hsize : nunits ≤ h.size h.freep
    · refine .inl ⟨q, mem_cons_self, by rw [hq]; exact hsize, fun fuel hfuel => ?_⟩
      rw [hq, hloop.take_eq hsize hfuel]
    · refine .inr ⟨fun x hx => ?_, fun fuel => ?_⟩
      · rw [List.mem_singleton.mp hx]
        exact not_le.mp hsize
      · rw [List.length_nil, Nat.add_zero, hloop, if_neg hsize, if_pos rfl]
  | cons x w ih =>
    obtain ⟨rfl, hrest⟩ := hwalk
    rw [mem_cons, not_or] at hw
    by_cases hsize : nunits ≤ h.size p
    · refine .inl ⟨q, mem_cons_self, by rw [hq]; exact hsize, fun fuel hfuel => ?_⟩
      rw [hq, hloop.take_eq hsize (Nat.zero_lt_of_lt hfuel)]
    · have hnext : ∀ fuel, loop (fuel + 1) q p = loop fuel p (h.next p) := fun fuel => by
        rw [hloop, if_neg hsize, if_neg (Ne.symm hw.1)]
      rcases ih hrest hw.2 rfl with ⟨q', hq', hlarge, htake⟩ | ⟨hsmall, hmore⟩
      · refine .inl ⟨q', mem_cons_of_mem q hq', hlarge, fun fuel hfuel => ?_⟩
        obtain ⟨fuel, rfl⟩ := Nat.exists_eq_add_one_of_ne_zero (Nat.ne_zero_of_lt hfuel)
        rw [hnext]
        exact htake fuel (by simpa using hfuel)
      · refine .inr ⟨fun x hx => ?_, fun fuel => ?_⟩
        · rcases mem_cons.mp hx with rfl | hx
          · exact not_le.mp hsize
          · exact hsmall x hx
        · rw [List.length_cons, ← Nat.add_assoc, hnext]
          exact hmore fuel

/-- All around the free list. -/
theorem around (hloop : Rover h nunits take more loop) (hl : FreeList base h l)
    (hrover : h.freep ∈ base :: l) : (∃ q ∈ base :: l, nunits ≤ h.size (h.next q) ∧
        Returns (fun fuel => loop fuel h.freep (h.next h.freep)) (take q (h.next q))) ∨
      (∀ x ∈ base :: l, h.size x < nunits) ∧ ∃ k, ∀ fuel, loop (fuel + k) h.freep (h.next h.freep) =
          more fuel := by
  obtain ⟨l1, l2, heq⟩ := List.append_of_mem hrover
  have hcycle := hl.cycle
  have hsorted := hl.sorted
  rw [heq] at hcycle hsorted
  have hnodup : (l1 ++ h.freep :: l2).Nodup := hsorted.imp fun hlt => Nat.ne_of_lt hlt
  have hmem : ∀ x, x ∈ h.freep :: (l2 ++ l1) ↔ x ∈ base :: l := fun x => by
    rw [heq]
    simp only [mem_append, mem_cons]
    grind
  have hw : h.freep ∉ l2 ++ l1 := by
    have := (List.nodup_cons.mp (List.nodup_middle.mp hnodup)).1
    simp only [mem_append] at this ⊢
    grind
  have hwalk : Seg h.next (h.next h.freep) (l2 ++ l1 ++ [h.freep]) (h.next h.freep) :=
    Seg.append hcycle.rotate.2 ⟨rfl, rfl⟩
  rcases hloop.walk (q := h.freep) hwalk hw rfl with ⟨q, hq, hlarge, htake⟩ | ⟨hsmall, hmore⟩
  · exact .inl ⟨q, (hmem q).mp hq, hlarge, _, htake⟩
  · refine .inr ⟨fun x hx => hsmall x ?_, (l2 ++ l1).length + 1, hmore⟩
    have := (hmem x).mpr hx
    simp only [mem_append, mem_cons] at this ⊢
    grind

end Rover

theorem rover_mallocLoop (h : Heap) (sbrk : Sbrk) (nunits : Nat) :
    Rover h nunits (Umalloc.take h nunits)
      (fun fuel => (morecore fuel sbrk h nunits).bind fun r =>
        if r.2 = 0 then some (r.1, 0) else mallocLoop sbrk nunits fuel r.1 r.2 (r.1.next r.2))
      (fun fuel q p => mallocLoop sbrk nunits fuel h q p) := by
  intro fuel q p
  rfl

/-- `free` of new memory leaves a block that is as large. -/
theorem Sound.freeNew (hs : Sound base h l allocated) (hpos : 0 < base) {a nu : Nat} (hnu : 0 < nu)
    (hbase : base + unit ≤ a) (hend : a + nu * unit < 2 ^ 32)
    (hfresh : ∀ r ∈ h.obtained, r.addr + r.bytes ≤ a) :
    ∃ h' l', Returns (fun fuel => Umalloc.free fuel
        (Heap.setSize { h with obtained := ⟨a, nu * unit⟩ :: h.obtained } a nu) (a + unit)) h' ∧
      h'.freep ≠ 0 ∧ Sound base h' l' allocated ∧ h'.obtained = ⟨a, nu * unit⟩ :: h.obtained ∧
      (∀ b, allocated b ≠ none → h'.len b = h.len b) ∧ ∃ b ∈ l', nu ≤ h'.size b := by
  obtain ⟨hnone, hgrown⟩ := hs.grow hnu hbase hend hfresh
  obtain ⟨h', l', hfree, hsound, hobtained, hframe, b, hb, hsize⟩ := hgrown.free (a + unit)
    (update_self ..)
  simp only [Nat.add_sub_cancel, update_idem] at hsound hframe hsize
  rw [update_eq_self_iff.mpr hnone.symm] at hsound
  have hfreep := hsound.base_le hsound.rover
  refine ⟨h', l', hfree, by omega, hsound, hobtained, fun c hc => ?_, b, hb, ?_⟩
  · have hca : c ≠ a := fun heq => hc (heq ▸ hnone)
    rw [hframe c hca (by rw [update_of_ne hca]; exact hc)]
    refine Heap.len_eq ?_
    rw [size_setSize, if_neg hca]
    rfl
  · rw [size_setSize, if_pos rfl] at hsize
    exact hsize

/-- `morecore` fails, or it leaves a block that is large enough. -/
theorem Sound.morecore (hs : Sound base h l allocated) (hbase : 0 < base) {sbrk : Sbrk}
    (hfresh : sbrk.Fresh base) {nunits : Nat} (hunits : nunits ≤ 2 ^ 28) :
    (∀ fuel, morecore fuel sbrk h nunits = some (h, 0)) ∨
      ∃ h' l', Returns (fun fuel => morecore fuel sbrk h nunits) (h', h'.freep) ∧ h'.freep ≠ 0 ∧
        Sound base h' l' allocated ∧ (∀ b, allocated b ≠ none → h'.len b = h.len b) ∧ ∃ a ∈ l',
        nunits ≤ h'.size a := by
  obtain ⟨nu, hnu, hle, hpos⟩ : ∃ nu, (if nunits < 4096 then 4096 else nunits) = nu ∧
      nunits ≤ nu ∧ 0 < nu := by
    refine ⟨_, rfl, ?_⟩
    split <;> omega
  have hbytes : nu * unit % 2 ^ 32 = nu * unit := by
    refine Nat.mod_eq_of_lt ?_
    unfold unit
    rw [← hnu]
    split <;> omega
  cases hsbrk : sbrk h (nu * unit) with
  | none =>
    refine .inl fun fuel => ?_
    simp only [Umalloc.morecore, hnu, hbytes, hsbrk]
  | some a =>
    obtain ⟨ha, hend, habove⟩ := hfresh h _ a hsbrk
    obtain ⟨h', l', ⟨N, hfree⟩, hfreep, hsound, -, hframe, b, hb, hsize⟩ := hs.freeNew hbase hpos
      ha hend habove
    refine .inr ⟨h', l', ⟨N, fun fuel hfuel => ?_⟩, hfreep, hsound, hframe, b, hb, hle.trans hsize⟩
    have := hfree fuel hfuel
    simp only at this
    simp only [Umalloc.morecore, hnu, hbytes, hsbrk, this]
    rfl

/-- The loop of `malloc` ends: with a new block, or with nothing changed if the system has no
memory. -/
theorem Sound.mallocLoop (hs : Sound base h l allocated) (hbase : 0 < base) {sbrk : Sbrk}
    (hfresh : sbrk.Fresh base) {nbytes nunits : Nat} (hunits : nunits ≤ 2 ^ 28)
    (hbytes : nbytes + unit ≤ unit * nunits) :
    ∃ h' r, Returns (fun fuel => mallocLoop sbrk nunits fuel h h.freep (h.next h.freep)) (h', r) ∧
      ((r = 0 ∧ h' = h) ∨ ∃ b, r = b + unit ∧ Allocates base h allocated nbytes h' b) := by
  rcases (rover_mallocLoop h sbrk nunits).around hs.toFreeList
    hs.rover with ⟨q, hq, hsize, hreturns⟩ | ⟨-, k, hmore⟩
  · obtain ⟨b, hb, halloc⟩ := hs.take hq rfl hsize hbytes
    exact ⟨_, _, hreturns, .inr ⟨b, hb, halloc⟩⟩
  · rcases hs.morecore hbase hfresh hunits with hfail | ⟨h1, l1, ⟨N, hN⟩, hfreep, hs1, hframe,
      a, ha, hlarge⟩
    · refine ⟨h, 0, ⟨k, fun fuel hfuel => ?_⟩, .inl ⟨rfl, rfl⟩⟩
      obtain ⟨fuel, rfl⟩ := Nat.exists_eq_add_of_le' hfuel
      show Umalloc.mallocLoop sbrk nunits (fuel + k) h h.freep (h.next h.freep) = _
      rw [hmore, hfail]
      rfl
    · rcases (rover_mallocLoop h1 sbrk nunits).around hs1.toFreeList
        hs1.rover with ⟨q, hq, hsize, ⟨M, hM⟩⟩ | ⟨hsmall, -⟩
      · obtain ⟨b, hb, halloc⟩ := hs1.take hq rfl hsize hbytes
        refine ⟨_, _, ⟨max M N + k, fun fuel hfuel => ?_⟩, .inr
          ⟨b, hb, halloc.sound, halloc.new, fun c hc => ?_⟩⟩
        · obtain ⟨fuel, rfl⟩ := Nat.exists_eq_add_of_le' hfuel
          have hcore : Umalloc.morecore (fuel + max M N) sbrk h nunits = some (h1, h1.freep) :=
            hN _ (by omega)
          show Umalloc.mallocLoop sbrk nunits (fuel + (max M N + k)) h h.freep (h.next h.freep) = _
          rw [← Nat.add_assoc, hmore, hcore, Option.bind_some, if_neg hfreep]
          exact hM _ (by omega)
        · rw [halloc.frame c hc, hframe c hc]
      · exact absurd (hsmall a (mem_cons_of_mem base ha)) (not_lt.mpr hlarge)

/-! ## Programs -/

/-- Stores that leave the headers alone change nothing for the allocator. -/
theorem Sound.write (hs : Sound base h l allocated) {mem : Nat → Header}
    (hmem : ∀ a, (∀ b, allocated b ≠ none → ¬ (b < a ∧ a < b + h.len b)) → mem a = h.mem a) :
    Sound base { h with mem := mem } l allocated := by
  have hblock : ∀ x ∈ blocks l allocated, mem x = h.mem x :=
      fun x hx => hmem x fun b hb ⟨hlt, hin⟩ => by
    have := hs.tiles.apart b (.inr hb) x hx hlt
    omega
  have hbase : mem base = h.mem base := hmem base fun b hb ⟨hlt, _⟩ => by
    have := hs.base_lt (b := b) (.inr hb)
    omega
  have hlist : ∀ x ∈ base :: l, mem x = h.mem x := fun x hx => by
    rcases mem_cons.mp hx with rfl | hx
    · exact hbase
    · exact hblock x (.inl hx)
  have hlen : ∀ x ∈ blocks l allocated, Heap.len { h with mem := mem } x = h.len x := fun x hx =>
    Heap.len_eq (congrArg Header.size (hblock x hx))
  refine ⟨⟨⟨?_, hs.sorted, ?_⟩, hs.disjoint, hs.tiles.congr hlen, fun b n hb => ?_, hs.bounds⟩,
    hs.rover, fun a ha b hb => ?_⟩
  · exact hs.cycle.congr fun x hx => congrArg Header.ptr (hlist x hx)
  · rw [← hs.base_size]
    exact congrArg Header.size hbase
  · rw [hlen b (.inr (by simp [hb]))]
    exact hs.large b n hb
  · rw [hlen a (.inl ha)]
    exact hs.apart a ha b hb

/-- The first call of `malloc` makes the list. -/
theorem Start.sound {s : State} (hs : Start s) (base : Nat) :
    Sound base { s.heap.setPtr base base |>.setSize base 0 with freep := base } [] s.allocated := by
  obtain ⟨-, hobtained, hallocated⟩ := hs
  have hmemory : ∀ x, x ∉ Heap.memory
      { s.heap.setPtr base base |>.setSize base 0 with freep := base } := by
    rintro x ⟨r, hr, -⟩
    simp only [Heap.obtained_setSize, Heap.obtained_setPtr, hobtained] at hr
    cases hr
  have hblocks : ∀ x, x ∉ blocks [] s.allocated := fun x => by simp [mem_blocks, hallocated]
  refine ⟨⟨⟨⟨rfl, ?_⟩, by simp, ?_⟩, by simp, ⟨fun b hb => ?_, fun a ha => ?_, fun x => ?_⟩,
    fun b n hb => ?_, fun x hx => ?_⟩, mem_cons_self, by simp⟩
  · exact (next_setSize ..).trans ((next_setPtr ..).trans (if_pos rfl))
  · exact (size_setSize ..).trans (if_pos rfl)
  · exact absurd hb (hblocks b)
  · exact absurd ha (hblocks a)
  · exact iff_of_false (fun ⟨b, hb, _⟩ => hblocks b hb) (hmemory x)
  · rw [hallocated] at hb
    cases hb
  · exact absurd hx (hmemory x)

/-- The allocator has not been used, or it is sound. -/
def Ready (base : Nat) (s : State) : Prop := Start s ∨ ∃ l, Sound base s.heap l s.allocated

theorem units_spec {nbytes : Nat} (hn : nbytes ≤ 2 ^ 30) :
    units nbytes ≤ 2 ^ 28 ∧ nbytes + unit ≤ unit * units nbytes := by
  have hmod : (nbytes + unit - 1) % 2 ^ 32 = nbytes + unit - 1 :=
    Nat.mod_eq_of_lt (by unfold unit; omega)
  unfold units
  rw [hmod]
  unfold unit
  omega

/-- `malloc` returns, a new block or null. -/
theorem Ready.malloc {s : State} (hs : Ready base s) (hbase : 0 < base) {sbrk : Sbrk}
    (hfresh : sbrk.Fresh base) {nbytes : Nat} (hn : nbytes ≤ 2 ^ 30) :
    ∃ h' r, Returns (fun fuel => malloc base fuel sbrk s.heap nbytes) (h', r) ∧
      ((r = 0 ∧ ∃ l, Sound base h' l s.allocated) ∨ ∃ b, r = b + unit ∧ Allocates base s.heap
        s.allocated nbytes h' b) := by
  obtain ⟨hunits, hbytes⟩ := units_spec hn
  rcases hs with hstart | ⟨l, hsound⟩
  · have hsound := hstart.sound base
    obtain ⟨h', r, hreturns, hr⟩ := hsound.mallocLoop hbase hfresh hunits hbytes
    refine ⟨h', r, ?_, ?_⟩
    · simp only [Umalloc.malloc, hstart.1, if_true]
      exact hreturns
    · rcases hr with ⟨rfl, rfl⟩ | ⟨b, hb, halloc⟩
      · exact .inl ⟨rfl, [], hsound⟩
      · refine .inr ⟨b, hb, halloc.sound, halloc.new, fun c hc => ?_⟩
        rw [hstart.2.2] at hc
        exact absurd rfl hc
  · obtain ⟨h', r, hreturns, hr⟩ := hsound.mallocLoop hbase hfresh hunits hbytes
    have hfreep : s.heap.freep ≠ 0 := by
      have := hsound.base_le hsound.rover
      omega
    refine ⟨h', r, ?_, ?_⟩
    · simp only [Umalloc.malloc, if_neg hfreep]
      exact hreturns
    · rcases hr with ⟨rfl, rfl⟩ | halloc
      · exact .inl ⟨rfl, l, hsound⟩
      · exact .inr halloc

/-- Every step leaves the allocator sound. -/
theorem Ready.step {s s' : State} {a : Act} (hs : Ready base s) (hbase : 0 < base)
    (hstep : Step base s a s') : Ready base s' := by
  cases a with
  | malloc nbytes sbrk =>
    obtain ⟨hn, hfresh, h', r, hreturns, rfl⟩ := hstep
    obtain ⟨h1, r1, hreturns1, hr⟩ := hs.malloc hbase hfresh hn
    obtain ⟨rfl, rfl⟩ := Prod.mk.inj (hreturns.unique hreturns1)
    right
    rcases hr with ⟨rfl, hsound⟩ | ⟨b, rfl, halloc⟩
    · rw [if_pos rfl]
      exact hsound
    · rw [if_neg (by unfold unit; omega), Nat.add_sub_cancel]
      exact halloc.sound
  | free ap =>
    obtain ⟨⟨n, -, hal⟩, h', hreturns, rfl⟩ := hstep
    rcases hs with hstart | ⟨l, hsound⟩
    · rw [hstart.2.2] at hal
      cases hal
    · obtain ⟨h1, l', hreturns1, hsound', -⟩ := hsound.free ap hal
      obtain rfl := hreturns.unique hreturns1
      exact .inr ⟨l', hsound'⟩
  | write mem =>
    obtain ⟨hmem, rfl⟩ := hstep
    rcases hs with hstart | ⟨l, hsound⟩
    · exact .inl hstart
    · exact .inr ⟨l, hsound.write hmem⟩

/-- What a call of `malloc` for `nbytes` may return: null, or a block whose part behind the header
has room and that overlaps no block that is allocated. -/
def Gives (s : State) (nbytes : Nat) (h : Heap) (r : Nat) : Prop :=
  r = 0 ∨ ∃ b, r = b + unit ∧ r + nbytes ≤ b + h.len b ∧
    ∀ c, s.allocated c ≠ none → c + s.heap.len c ≤ b ∨ b + h.len b ≤ c

theorem Allocates.gives {s : State} {nbytes b : Nat} {h' : Heap}
    (ha : Allocates base s.heap s.allocated nbytes h' b) : Gives s nbytes h' (b + unit) := by
  obtain ⟨⟨l, hs⟩, hnew, hframe⟩ := ha
  have hb : b ∈ blocks l (update s.allocated b (some nbytes)) := .inr (by simp)
  refine .inr ⟨b, rfl, ?_, fun c hc => ?_⟩
  · have := hs.large b nbytes (update_self ..)
    omega
  · have hcb : c ≠ b := fun heq => hc (heq ▸ hnew)
    have hc' : c ∈ blocks l (update s.allocated b (some nbytes)) :=
      .inr (by rw [update_of_ne hcb]; exact hc)
    rw [← hframe c hc]
    rcases Nat.lt_or_gt_of_ne hcb with hlt | hgt
    · exact .inl (hs.tiles.apart c hc' b hb hlt)
    · exact .inr (hs.tiles.apart b hb c hc' hgt)

/-- The allocator in any program: its state is sound whenever no call is in progress, every
call of `malloc` returns null or a block that can be used, and every call of `free` returns. -/
theorem reachable_ready {s : State} (hbase : 0 < base) (h : Reach Start (Step base) s) :
    Ready base s ∧
      (∀ nbytes sbrk, nbytes ≤ 2 ^ 30 → sbrk.Fresh base →
        ∃ h' r, Returns (fun fuel => malloc base fuel sbrk s.heap nbytes) (h', r) ∧
          Gives s nbytes h' r) ∧
      ∀ ap n, s.allocated (ap - unit) = some n →
        ∃ h', Returns (fun fuel => free fuel s.heap ap) h' := by
  have hready : Ready base s := h.invariant (fun _ => .inl) fun s a s' hs hstep =>
    hs.step hbase hstep
  refine ⟨hready, fun nbytes sbrk hn hfresh => ?_, fun ap n hal => ?_⟩
  · obtain ⟨h', r, hreturns, hr⟩ := hready.malloc hbase hfresh hn
    refine ⟨h', r, hreturns, ?_⟩
    rcases hr with ⟨rfl, -⟩ | ⟨b, rfl, halloc⟩
    · exact .inl rfl
    · exact halloc.gives
  · rcases hready with hstart | ⟨l, hsound⟩
    · rw [hstart.2.2] at hal
      cases hal
    · obtain ⟨h', -, hreturns, -⟩ := hsound.free ap hal
      exact ⟨h', hreturns⟩

/-- A program that has allocated nothing, with `base` at 8. -/
def unused : State := ⟨⟨fun _ => ⟨0, 0⟩, 0, []⟩, fun _ => none⟩

/-- A system that gives memory at 64 once. -/
def once : Sbrk := fun h n => if h.obtained = [] ∧ 64 + n < 2 ^ 32 then some 64 else none

theorem once_fresh : once.Fresh 8 := by
  intro h n a ha
  unfold once at ha
  split at ha
  · next hc =>
    cases ha
    refine ⟨by decide, hc.2, fun r hr => ?_⟩
    rw [hc.1] at hr
    cases hr
  · cases ha

/-- The heap after `malloc(100)`, and the address it returns. -/
def first : Heap × Nat := ((malloc 8 9 once unused.heap 100)).getD (unused.heap, 0)

theorem first_returns : Returns (fun fuel => malloc 8 fuel once unused.heap 100) first := by
  refine ⟨9, fun fuel hfuel => ?_⟩
  obtain ⟨fuel, rfl⟩ := Nat.exists_eq_add_of_le' hfuel
  rfl

/-- The program after that call. -/
def used : State :=
  ⟨first.1, if first.2 = 0 then unused.allocated else update unused.allocated
    (first.2 - unit) (some 100)⟩

theorem reachable_ready_used :
    used.allocated 32720 = some 100 ∧ Ready 8 used ∧
      ∃ h', Returns (fun fuel => free fuel used.heap 32728) h' := by
  have hreach : Reach Start (Step 8) used := .step (a := .malloc 100 once)
    (.init (s := unused) ⟨rfl, rfl, rfl⟩)
    ⟨by decide, once_fresh, first.1, first.2, first_returns, rfl⟩
  have hused : used.allocated 32720 = some 100 := by decide +kernel
  have hready := reachable_ready (by decide) hreach
  exact ⟨hused, hready.1, hready.2.2 32728 100 hused⟩

end

end Xv6Rework.Umalloc
