import Xv6Rework.Kernel.Grow
import Xv6Rework.User.Umalloc

/-!
# How large a block `malloc` can give

`malloc` computes with `uint32`: the number of units for a request, and the bytes for so many
units, which become the `int` that `sbrk` takes.  Here `sbrk` is the one of the kernel:
`growproc` moves the end of the process's memory and `sbrk` returns where it was.  A negative
amount is a request like any other, and one that is larger than the memory there is changes
nothing and is granted.

Memory that `sbrk` has granted is what is between the end of the program's image, `start`, and
the end of the process.  Pages are mapped up to the end of the process, so `morecore`, which
writes its header where the memory ended before, gets no further if that is no longer or not yet
in a page of the process.  All other headers that `malloc` reads or writes are `base` and blocks
in memory that has been granted.

`malloc` is right for up to `2 ^ 31 - 16` bytes.  Any larger request that it grants, it grants
without the memory.
-/

namespace Xv6Rework.Umalloc

open Vm Kernel

/-- A process: its allocator, and the end of its memory. -/
structure Proc where
  heap : Heap
  sz : Nat

namespace Proc

/-- `morecore` with `growproc` below it. -/
def morecore (fits : Nat → Bool) (fuel : Nat) (s : Proc) (nu : Nat) : Option (Proc × Nat) :=
  let nu := if nu < 4096 then 4096 else nu
  let n := (BitVec.ofNat 32 (nu * unit)).toInt
  match newSize fits s.sz n with
  | none => some (s, 0)
  | some sz =>
    -- the store to the header is a page fault, and the process is killed
    if pageUp sz * PGSIZE < s.sz + unit then none
    else do
      let h := { s.heap with
        obtained := if n > 0 then ⟨s.sz, n.toNat⟩ :: s.heap.obtained else s.heap.obtained }
      let h ← free fuel (h.setSize s.sz nu) (s.sz + unit)
      return (⟨h, sz⟩, h.freep)

/-- `malloc` when the block `p` behind `prevp` is large enough. -/
def take (s : Proc) (nunits prevp p : Nat) : Proc × Nat :=
  (⟨(Umalloc.take s.heap nunits prevp p).1, s.sz⟩, (Umalloc.take s.heap nunits prevp p).2)

/-- The loop of `malloc`. -/
def mallocLoop (fits : Nat → Bool) (nunits : Nat) : Nat → Proc → Nat → Nat → Option (Proc × Nat)
  | 0, _, _, _ => none
  | fuel + 1, s, prevp, p =>
    if nunits ≤ s.heap.size p then some (s.take nunits prevp p)
    else if p = s.heap.freep then do
      let (s, p) ← s.morecore fits fuel nunits
      if p = 0 then some (s, 0) else mallocLoop fits nunits fuel s p (s.heap.next p)
    else mallocLoop fits nunits fuel s p (s.heap.next p)

/-- `malloc`. -/
def malloc (base : Nat) (fits : Nat → Bool) (fuel : Nat) (s : Proc) (nbytes : Nat) :
    Option (Proc × Nat) :=
  let h := if s.heap.freep = 0 then
    { s.heap.setPtr base base |>.setSize base 0 with freep := base } else s.heap
  mallocLoop fits (units nbytes) fuel ⟨h, s.sz⟩ h.freep (h.next h.freep)

/-- What holds between calls: the allocator is ready, and its memory is between `start` and the
end of the process. -/
structure Ready (base start : Nat) (allocated : Nat → Option Nat) (s : Proc) : Prop where
  ready : Umalloc.Ready base ⟨s.heap, allocated⟩
  base_pos : 0 < base
  base_le : base + unit ≤ start
  start_le : start ≤ s.sz
  sz_lt : s.sz < KERNBASE
  inside : ∀ r ∈ s.heap.obtained, start ≤ r.addr ∧ r.addr + r.bytes ≤ s.sz

/-- The pointer `r` is to a block of at least `nbytes`, which with its header are in memory that
has been granted. -/
def Usable (start : Nat) (s : Proc) (r nbytes : Nat) : Prop :=
  ∃ b, r = b + unit ∧ nbytes + unit ≤ s.heap.len b ∧ ∀ x, b ≤ x → x < r + nbytes →
    start ≤ x ∧ x < s.sz

variable {base start : Nat} {allocated : Nat → Option Nat} {s s' : Proc} {l : List Nat}
  {fits : Nat → Bool} {nbytes nunits r : Nat}

/-! ## The end of the process -/

theorem morecore_sz_lt {fuel : Nat} (hsz : s.sz < KERNBASE)
    (h : s.morecore fits fuel nunits = some (s', r)) : s'.sz < KERNBASE := by
  simp only [morecore] at h
  split at h
  · cases h
    exact hsz
  · next hnew =>
    split at h
    · cases h
    · simp only [Option.bind_eq_bind, Option.bind_eq_some_iff] at h
      obtain ⟨h', -, heq⟩ := h
      cases heq
      exact newSize_lt hsz hnew

/-- The process stays below the kernel. -/
theorem mallocLoop_sz_lt {fuel q p : Nat} (hsz : s.sz < KERNBASE)
    (h : mallocLoop fits nunits fuel s q p = some (s', r)) : s'.sz < KERNBASE := by
  induction fuel generalizing s q p with
  | zero => cases h
  | succ fuel ih =>
    rw [mallocLoop] at h
    split at h
    · cases h
      exact hsz
    · split at h
      · simp only [Option.bind_eq_bind, Option.bind_eq_some_iff] at h
        obtain ⟨⟨s1, p1⟩, hmore, h⟩ := h
        have hsz1 := morecore_sz_lt hsz hmore
        split at h
        · cases h
          exact hsz1
        · exact ih hsz1 h
      · exact ih hsz h

theorem malloc_sz_lt {fuel : Nat} (hsz : s.sz < KERNBASE)
    (h : s.malloc base fits fuel nbytes = some (s', r)) : s'.sz < KERNBASE := by
  unfold malloc at h
  refine mallocLoop_sz_lt ?_ h
  exact hsz

/-- Nothing in the user part is larger. -/
theorem Usable.le (h : Usable start s r nbytes) (hsz : s.sz < KERNBASE) (hstart : unit ≤ start) :
    nbytes ≤ 2 ^ 31 - 16 := by
  obtain ⟨b, rfl, -, hin⟩ := h
  have hK := kernbase_eq
  have hlow := hin b le_rfl (by unfold unit; omega)
  have hhigh := hin (b + unit + nbytes - 1) (by unfold unit; omega) (by unfold unit; omega)
  unfold unit at hstart hhigh
  omega

/-! ## Requests that do not wrap -/

theorem rover_mallocLoop (s : Proc) (fits : Nat → Bool) (nunits : Nat) :
    Rover s.heap nunits (s.take nunits)
      (fun fuel => (s.morecore fits fuel nunits).bind fun r =>
        if r.2 = 0 then some (r.1, 0) else mallocLoop fits nunits fuel r.1 r.2 (r.1.heap.next r.2))
      (fun fuel q p => mallocLoop fits nunits fuel s q p) := by
  intro fuel q p
  rfl

theorem obtained_take (h : Heap) (nunits q p : Nat) :
    (Umalloc.take h nunits q p).1.obtained = h.obtained := by
  unfold Umalloc.take
  split <;> rfl

theorem toInt_ofNat_of_lt {n : Nat} (h : n < 2 ^ 31) : (BitVec.ofNat 32 n).toInt = n := by
  rw [BitVec.toInt_eq_toNat_cond, BitVec.toNat_ofNat, Nat.mod_eq_of_lt (by omega),
    if_pos (by omega)]

/-- `morecore` fails, or it leaves a block that is large enough. -/
theorem morecore_spec (fits : Nat → Bool) (hs : Sound base s.heap l allocated) (hbase : 0 < base)
    (hlow : base + unit ≤ s.sz) (hsz : s.sz < KERNBASE)
    (hin : ∀ r ∈ s.heap.obtained, r.addr + r.bytes ≤ s.sz) (hunits : nunits < 2 ^ 28) :
    (∀ fuel, s.morecore fits fuel nunits = some (s, 0)) ∨
      ∃ s' l', Returns (fun fuel => s.morecore fits fuel nunits) (s', s'.heap.freep) ∧
      s'.heap.freep ≠ 0 ∧
        Sound base s'.heap l' allocated ∧ (∃ a ∈ l', nunits ≤ s'.heap.size a) ∧
        ∃ n, s'.heap.obtained = ⟨s.sz, n⟩ :: s.heap.obtained ∧ s'.sz = s.sz + n := by
  have hK := kernbase_eq
  obtain ⟨nu, hnu, hle, hpos⟩ : ∃ nu, (if nunits < 4096 then 4096 else nunits) = nu ∧
      nunits ≤ nu ∧ 0 < nu := by
    refine ⟨_, rfl, ?_⟩
    split <;> omega
  have hbytes : nu * unit < 2 ^ 31 ∧ 0 < nu * unit := by
    unfold unit
    rw [← hnu]
    split <;> omega
  have hint := toInt_ofNat_of_lt hbytes.1
  have hadd : add32 s.sz (nu * unit) = s.sz + nu * unit := by
    simp only [add32]
    omega
  have hsize : newSize fits s.sz ↑(nu * unit) =
      if s.sz + nu * unit < KERNBASE ∧ fits (s.sz + nu * unit) then
      some (s.sz + nu * unit) else none := by
    simp only [newSize, Int.toNat_natCast, hadd]
    rw [if_pos (by omega)]
  by_cases hfits : s.sz + nu * unit < KERNBASE ∧ fits (s.sz + nu * unit)
  · obtain ⟨h', l', ⟨N, hfree⟩, hfreep, hsound, hobtained, -, b, hb, hlarge⟩ :=
      hs.freeNew hbase hpos hlow (by omega) hin
    have hmapped : ¬pageUp (s.sz + nu * unit) * PGSIZE < s.sz + unit := by
      have := pageUp_le.mp (le_refl (pageUp (s.sz + nu * unit)))
      unfold unit at *
      omega
    refine .inr ⟨⟨h', s.sz + nu * unit⟩, l', ⟨N, fun fuel hfuel => ?_⟩, hfreep, hsound,
      ⟨b, hb, hle.trans hlarge⟩, nu * unit, hobtained, rfl⟩
    have hrun := hfree fuel hfuel
    simp only at hrun
    simp only [morecore, hnu, hint, hsize, if_pos hfits, if_neg hmapped, Int.toNat_natCast]
    rw [if_pos (by omega), hrun]
    rfl
  · refine .inl fun fuel => ?_
    simp only [morecore, hnu, hint, hsize, if_neg hfits]

/-- A block that is taken off the list is in granted memory. -/
theorem take_usable (hs : Sound base s.heap l allocated) {q : Nat} (hq : q ∈ base :: l)
    (hsize : nunits ≤ s.heap.size (s.heap.next q)) (hunits : nbytes + unit ≤ unit * nunits)
    (hin : ∀ r ∈ s.heap.obtained, start ≤ r.addr ∧ r.addr + r.bytes ≤ s.sz) :
    Usable start (s.take nunits q (s.heap.next q)).1
      (s.take nunits q (s.heap.next q)).2 nbytes := by
  obtain ⟨b, hb, ⟨l', hs'⟩, -, -⟩ := hs.take hq rfl hsize hunits
  have hlarge := hs'.large b nbytes (Function.update_self ..)
  refine ⟨b, hb, hlarge, fun x hle hlt => ?_⟩
  have hblock : b ∈ blocks l' (Function.update allocated b (some nbytes)) := .inr (by simp)
  have hmem := (hs'.tiles.cover x).mp ⟨b, hblock, hle, by
    have : x < b + unit + nbytes := hb ▸ hlt
    omega⟩
  obtain ⟨r, hr, hrx⟩ := hmem
  rw [obtained_take] at hr
  have := hin r hr
  show start ≤ x ∧ x < s.sz
  omega

/-- The loop of `malloc` ends, with a block that can be used or with null. -/
theorem mallocLoop_spec (hs : Sound base s.heap l allocated) (hbase : 0 < base)
    (hlow : base + unit ≤ start) (hstart : start ≤ s.sz) (hsz : s.sz < KERNBASE)
    (hin : ∀ r ∈ s.heap.obtained, start ≤ r.addr ∧ r.addr + r.bytes ≤ s.sz)
    (hunits : nunits < 2 ^ 28) (hbytes : nbytes + unit ≤ unit * nunits) :
    ∃ s' r, Returns (fun fuel => mallocLoop fits nunits fuel s s.heap.freep
        (s.heap.next s.heap.freep)) (s', r) ∧
      (r = 0 ∨ Usable start s' r nbytes) := by
  rcases (rover_mallocLoop s fits nunits).around hs.toFreeList
    hs.rover with ⟨q, hq, hsize, hreturns⟩ | ⟨-, k, hmore⟩
  · exact ⟨_, _, hreturns, .inr (take_usable hs hq hsize hbytes hin)⟩
  · rcases morecore_spec fits hs hbase (by omega) hsz (fun r hr => (hin r hr).2) hunits with
      hfail | ⟨s1, l1, ⟨N, hN⟩, hfreep, hs1, ⟨a, ha, hlarge⟩, n, hobtained, hsz1⟩
    · refine ⟨s, 0, ⟨k, fun fuel hfuel => ?_⟩, .inl rfl⟩
      obtain ⟨fuel, rfl⟩ := Nat.exists_eq_add_of_le' hfuel
      show mallocLoop fits nunits (fuel + k) s s.heap.freep (s.heap.next s.heap.freep) = _
      rw [hmore, hfail]
      rfl
    · rcases (rover_mallocLoop s1 fits nunits).around hs1.toFreeList hs1.rover with
        ⟨q, hq, hsize, ⟨M, hM⟩⟩ | ⟨hsmall, -⟩
      · refine ⟨_, _, ⟨max M N + k, fun fuel hfuel => ?_⟩, .inr
          (take_usable hs1 hq hsize hbytes fun r hr => ?_)⟩
        · obtain ⟨fuel, rfl⟩ := Nat.exists_eq_add_of_le' hfuel
          have hcore : s.morecore fits (fuel + max M N) nunits = some (s1, s1.heap.freep) :=
            hN _ (by omega)
          show mallocLoop fits nunits (fuel + (max M N + k)) s s.heap.freep
            (s.heap.next s.heap.freep) = _
          rw [← Nat.add_assoc, hmore, hcore, Option.bind_some, if_neg hfreep]
          exact hM _ (by omega)
        · rw [hobtained] at hr
          rcases List.mem_cons.mp hr with rfl | hr
          · exact ⟨hstart, hsz1.ge⟩
          · have := hin r hr
            omega
      · exact absurd (hsmall a (List.mem_cons_of_mem base ha)) (not_lt.mpr hlarge)

theorem units_le (hn : nbytes ≤ 2 ^ 31 - 16) : units nbytes < 2 ^ 28 ∧
    nbytes + unit ≤ unit * units nbytes := by
  have hmod : (nbytes + unit - 1) % 2 ^ 32 = nbytes + unit - 1 :=
    Nat.mod_eq_of_lt (by unfold unit; omega)
  unfold units
  rw [hmod]
  unfold unit
  omega

/-- `malloc` returns, and what it returns can be used, for requests that are not too large. -/
theorem Ready.malloc (hs : s.Ready base start allocated) (fits : Nat → Bool)
    (hn : nbytes ≤ 2 ^ 31 - 16) :
    ∃ s' r, Returns (fun fuel => s.malloc base fits fuel nbytes) (s', r) ∧
      (r = 0 ∨ Usable start s' r nbytes) := by
  obtain ⟨hunits, hbytes⟩ := units_le hn
  rcases hs.ready with hfirst | ⟨l, hsound⟩
  · have hfreep : s.heap.freep = 0 := hfirst.1
    simp only [Proc.malloc, if_pos hfreep]
    exact mallocLoop_spec (s := ⟨_, s.sz⟩) (hfirst.sound base) hs.base_pos hs.base_le hs.start_le
      hs.sz_lt hs.inside hunits hbytes
  · have hfreep : s.heap.freep ≠ 0 := by
      have hle : base ≤ s.heap.freep := hsound.base_le hsound.rover
      have := hs.base_pos
      omega
    simp only [Proc.malloc, if_neg hfreep]
    exact mallocLoop_spec (s := ⟨_, s.sz⟩) hsound hs.base_pos hs.base_le hs.start_le hs.sz_lt
      hs.inside hunits hbytes

/-- What `malloc` returns can be used exactly for requests of at most `2 ^ 31 - 16` bytes.  Beyond
that, the number of units, the bytes for them or the sign of these is wrong, whatever the state. -/
theorem malloc_usable_iff (base start nbytes : Nat) (allocated : Nat → Option Nat)
    (fits : Nat → Bool) (s s' : Proc) (r : Nat) (hs : s.Ready base start allocated)
    (hret : Returns (fun fuel => s.malloc base fits fuel nbytes) (s', r)) (hr : r ≠ 0) :
    Usable start s' r nbytes ↔ nbytes ≤ 2 ^ 31 - 16 := by
  constructor
  · intro h
    obtain ⟨N, hN⟩ := hret
    have hstart := hs.base_le
    exact h.le (malloc_sz_lt hs.sz_lt (hN N le_rfl)) (by omega)
  · intro hn
    obtain ⟨s1, r1, hret1, hr1⟩ := hs.malloc fits hn
    obtain ⟨rfl, rfl⟩ := Prod.mk.inj (hret.unique hret1)
    exact hr1.resolve_left hr

/-- A program of three pages that has allocated nothing but has called `sbrk(8)`, with `base` at
8. -/
def eight : Proc := ⟨unused.heap, 12296⟩

theorem eight_ready : eight.Ready 8 12288 fun _ => none where
  ready := .inl ⟨rfl, rfl, rfl⟩
  base_pos := by decide
  base_le := by decide
  start_le := by decide
  sz_lt := by simp [eight, kernbase_eq]
  inside r hr := by cases hr

/-- What `malloc` gives this program. -/
def given (nbytes : Nat) : Proc × Nat := (eight.malloc 8 (fun _ => true) 9 nbytes).getD (eight, 0)

/-- Each of these requests is granted. -/
def Granted (nbytes : Nat) : Prop :=
  Returns (fun fuel => eight.malloc 8 (fun _ => true) fuel nbytes) (given nbytes) ∧
    (given nbytes).2 ≠ 0

unseal PGSIZE KERNPAGE KERNBASE in
theorem granted_all : Granted 100 ∧ Granted (2 ^ 32 - 1) ∧ Granted (2 ^ 32 - 8) ∧
    Granted (2 ^ 31) := by
  refine ⟨⟨⟨9, fun fuel hfuel => ?_⟩, by decide +kernel⟩,
    ⟨⟨9, fun fuel hfuel => ?_⟩, by decide +kernel⟩, ⟨⟨9, fun fuel hfuel => ?_⟩, by decide +kernel⟩,
    ⟨9, fun fuel hfuel => ?_⟩, by decide +kernel⟩ <;>
  · obtain ⟨fuel, rfl⟩ := Nat.exists_eq_add_of_le' hfuel
    rfl

theorem malloc_usable_hundred : Granted 100 ∧ Usable 12288 (given 100).1 (given 100).2 100 :=
  ⟨granted_all.1, (malloc_usable_iff 8 12288 100 _ _ eight _ _ eight_ready granted_all.1.1
    granted_all.1.2).mpr (by decide)⟩

/-- The number of units wraps around to 1, the bytes for them to 0, and the bytes are a negative
`int`.  None of the three requests gets a byte. -/
theorem not_malloc_usable_wrapped :
    (Granted (2 ^ 32 - 1) ∧
      ¬Usable 12288 (given (2 ^ 32 - 1)).1 (given (2 ^ 32 - 1)).2 (2 ^ 32 - 1)) ∧
    (Granted (2 ^ 32 - 8) ∧
      ¬Usable 12288 (given (2 ^ 32 - 8)).1 (given (2 ^ 32 - 8)).2 (2 ^ 32 - 8)) ∧
    Granted (2 ^ 31) ∧ ¬Usable 12288 (given (2 ^ 31)).1 (given (2 ^ 31)).2 (2 ^ 31) := by
  have hbad : ∀ nbytes, Granted nbytes → 2 ^ 31 - 16 < nbytes →
      ¬Usable 12288 (given nbytes).1 (given nbytes).2 nbytes := fun nbytes ⟨⟨N, hN⟩, _⟩ hlt h => by
    have := h.le (malloc_sz_lt eight_ready.sz_lt (hN N le_rfl)) (by decide)
    omega
  obtain ⟨-, hunits, hbytes, hint⟩ := granted_all
  exact ⟨⟨hunits, hbad _ hunits (by decide)⟩, ⟨hbytes, hbad _ hbytes (by decide)⟩, hint,
    hbad _ hint (by decide)⟩

end Proc

end Xv6Rework.Umalloc
