import Xv6Rework.Kernel.Exec
import Xv6Rework.Mem.Image

/-!
# The arguments of a program

`exec` pushes the strings of `argv` and then a table of pointers to them onto the new stack, a
single page above a page that is closed to the user.  The main results say exactly when this
succeeds, and that what `main` reads back is what was passed.

A string that does not fit runs into the closed page and `copyout` fails.  One that is longer
than the stack pointer is large makes it wrap around: the address is then above the program,
where `copyout` also fails unless there is no page table, and it faults.
-/

namespace Xv6Rework

open Prog Vm
open Fs (MAXARG)

/-! ## What `main` reads -/

/-- The word that the user sees at an address. -/
def Vm.Ram.word (r : Ram) (d a : Nat) : Option Nat := do
  let b0 ← r.byte d a
  let b1 ← r.byte d (a + 1)
  let b2 ← r.byte d (a + 2)
  let b3 ← r.byte d (a + 3)
  pure (b0.toNat + 256 * b1.toNat + 256 ^ 2 * b2.toNat + 256 ^ 3 * b3.toNat)

/-- The C string that the user sees at an address. -/
def Vm.Ram.string (r : Ram) (d : Nat) : Nat → Nat → Option (List UInt8)
  | 0, _ => none
  | k + 1, a => do
    let b ← r.byte d a
    if b = 0 then
      pure []
    else
      let s ← r.string d k (a + 1)
      pure (b :: s)

/-- `argc` pointers to strings from an address on, and a null pointer. -/
def Vm.Ram.strings (r : Ram) (d : Nat) : Nat → Nat → Option (List (Nat × List UInt8))
  | 0, a => do
    if (← r.word d a) = 0 then pure [] else none
  | argc + 1, a => do
    let ptr ← r.word d a
    let s ← r.string d (2 ^ 32) ptr
    let rest ← r.strings d argc (a + 4)
    pure ((ptr, s) :: rest)

/-- The arguments that `main` is called with: a return address, `argc`, and a pointer to the
pointers, which follow. -/
def Vm.Ram.args (r : Ram) (d esp : Nat) : Option (List (Nat × List UInt8)) := do
  let ret ← r.word d esp
  let argc ← r.word d (esp + 4)
  let argv ← r.word d (esp + 8)
  if ret = 0xffffffff ∧ argv = esp + 12 then r.strings d argc argv else none

namespace Caller

/-! ## Where things go -/

/-- The bytes that a string takes on the stack. -/
def room (s : List UInt8) : Nat := (s.length + 4) / 4 * 4

/-- The bytes that the strings take. -/
def strBytes (argv : List (List UInt8)) : Nat := (argv.map room).sum

/-- The bytes that all of it takes. -/
def argBytes (argv : List (List UInt8)) : Nat := strBytes argv + 4 * (argv.length + 4)

/-- The arguments fit on the stack. -/
def Fits (argv : List (List UInt8)) : Prop := argv.length ≤ MAXARG ∧ argBytes argv ≤ PGSIZE

instance (argv : List (List UInt8)) : Decidable (Fits argv) := inferInstanceAs (Decidable (_ ∧ _))

/-- The addresses of the strings, from the stack pointer `pos` down. -/
def argAddrs : Nat → List (List UInt8) → List Nat
  | _, [] => []
  | pos, s :: argv => (pos - room s) :: argAddrs (pos - room s) argv

/-- The runs of bytes that the strings are, each with its address. -/
def strPieces : Nat → List (List UInt8) → List (Nat × Nat)
  | _, [] => []
  | pos, s :: argv => (pos - room s, s.length + 1) :: strPieces (pos - room s) argv

/-- All the runs of bytes that are written, for a stack that ends at `sz`. -/
def argPieces (sz : Nat) (argv : List (List UInt8)) : List (Nat × Nat) :=
  strPieces sz argv ++ [(sz - argBytes argv, 4 * (argv.length + 4))]

/-- The memory with the strings. -/
def putArgs (mem : Memory) : Nat → List (List UInt8) → Memory
  | _, [] => mem
  | pos, s :: argv => putArgs (mem.put (pos - room s) (s ++ [0])) (pos - room s) argv

/-- The memory with all of it. -/
def argMem (mem : Memory) (sz : Nat) (argv : List (List UInt8)) : Memory :=
  (putArgs mem sz argv).put (sz - argBytes argv)
    ((ustack (sz - strBytes argv) (argAddrs sz argv)).flatMap wordBytes)

/-- There is no page table for an address in the kernel's part. -/
def Gap (I : Layout) (a : Nat) : Prop := ∀ v, v / NPDENTRIES = a / PGSIZE / NPDENTRIES →
    kernelMaps I v = none

/-- The first argument that does not fit makes the stack pointer wrap around to an address
without a page table.  The stack pointer is at `pos`, the stack starts at `base`, and `k`
arguments have been pushed. -/
def Overlong (I : Layout) (base pos k : Nat) (argv : List (List UInt8)) : Prop :=
  ∃ l s l', argv = l ++ s :: l' ∧ k + l.length < MAXARG ∧ base + strBytes l ≤ pos ∧
    pos - strBytes l < s.length + 1 ∧ Gap I (push (pos - strBytes l) s)

section

variable {I : Layout} {s : List UInt8} {argv : List (List UInt8)} {base pos k a sz x : Nat}
  {mem : Memory}

theorem length_lt_room : s.length < room s := by
  rw [room]
  omega

theorem room_le_length : room s ≤ s.length + 4 := by
  rw [room]
  omega

theorem room_mod : room s % 4 = 0 := Nat.mul_mod_left _ _

@[simp] theorem strBytes_nil : strBytes [] = 0 := rfl

@[simp] theorem strBytes_cons : strBytes (s :: argv) = room s + strBytes argv := rfl

theorem strBytes_mod (argv : List (List UInt8)) : strBytes argv % 4 = 0 := by
  induction argv with
  | nil => rfl
  | cons s argv ih =>
    have := room_mod (s := s)
    rw [strBytes_cons]
    omega

theorem argAddrs_mod (hpos : pos % 4 = 0) : ∀ a ∈ argAddrs pos argv, a % 4 = 0 := by
  induction argv generalizing pos with
  | nil => exact fun _ h => nomatch h
  | cons s argv ih =>
    have hmod : (pos - room s) % 4 = 0 := by
      have := room_mod (s := s)
      omega
    exact List.forall_mem_cons.2 ⟨hmod, ih hmod⟩

@[simp] theorem length_argAddrs : (argAddrs pos argv).length = argv.length := by
  induction argv generalizing pos with
  | nil => rfl
  | cons s argv ih => simp [argAddrs, ih]

/-- A string that fits goes directly below the stack pointer. -/
theorem push_eq (hpos : pos % 4 = 0) (hlt : pos < 2 ^ 32) (hroom : room s ≤ pos) :
    push pos s = pos - room s := by
  simp only [push, sub32, room] at *
  omega

/-- One that is too long goes above the program. -/
theorem push_wraps (hpos : PGSIZE ≤ pos) (hs : s.length < KERNBASE) (hlt : pos < s.length + 1) :
    KERNBASE ≤ push pos s ∧ push pos s < 2 ^ 32 := by
  simp only [push, sub32, KERNBASE, KERNPAGE, PGSIZE] at *
  omega

/-- No string of at most a page does. -/
theorem not_overlong_of_le (hbase : PGSIZE ≤ base) (hs : ∀ s ∈ argv, s.length ≤ PGSIZE) :
    ¬Overlong I base pos k argv := by
  rintro ⟨l, s, l', rfl, -, hle, hlt, hgap⟩
  have hlen := hs s (by simp)
  -- only the last page of all is reached
  have hpush : push (pos - strBytes l) s / PGSIZE = 2 ^ 20 - 1 := by
    simp only [push, sub32, PGSIZE] at *
    omega
  exact kernelMaps_devspace (Nat.le_sub_one_of_lt I.devspace_lt) (by decide)
    (hgap (2 ^ 20 - 1) (by rw [hpush]))

theorem overlong_cons : Overlong I base pos k (s :: argv) ↔
    (k < MAXARG ∧ base ≤ pos ∧ pos < s.length + 1 ∧ Gap I (push pos s)) ∨
      (base + room s ≤ pos ∧ Overlong I base (pos - room s) (k + 1) argv) := by
  constructor
  · rintro ⟨l, s', l', heq, hk, hbase, hlong, hgap⟩
    cases l with
    | nil =>
      cases heq
      exact .inl ⟨hk, hbase, hlong, hgap⟩
    | cons s0 l =>
      cases heq
      rw [strBytes_cons] at hbase hlong hgap
      rw [← Nat.sub_sub] at hlong hgap
      exact .inr ⟨by omega, l, s', l', rfl, by simp at hk; omega, by omega, hlong, hgap⟩
  · rintro (⟨hk, hbase, hlong, hgap⟩ | ⟨hfit, l, s', l', rfl, hk, hbase, hlong, hgap⟩)
    · exact ⟨[], s, argv, rfl, hk, hbase, hlong, hgap⟩
    · refine ⟨s :: l, s', l', rfl, by simp; omega, ?_, ?_, ?_⟩
      · rw [strBytes_cons]
        omega
      · rwa [strBytes_cons, ← Nat.sub_sub]
      · rwa [strBytes_cons, ← Nat.sub_sub]

theorem not_overlong_nil : ¬Overlong I base pos k [] := by
  rintro ⟨l, s, l', heq, -⟩
  simp at heq

/-! ## What is there afterwards -/

/-- The strings leave alone what is above them. -/
theorem putArgs_above (hfit : strBytes argv ≤ pos) (hx : pos ≤ x) :
    putArgs mem pos argv x = mem x := by
  induction argv generalizing mem pos with
  | nil => rfl
  | cons s argv ih =>
    have hroom := length_lt_room (s := s)
    rw [strBytes_cons] at hfit
    rw [putArgs, ih (by omega) (by omega), Memory.put_outside]
    simp only [List.length_append, List.length_singleton]
    omega

/-- The string `s` is at the address `a`, between `lo` and `hi`. -/
structure StringAt (mem : Memory) (lo hi a : Nat) (s : List UInt8) : Prop where
  le : lo ≤ a
  end_le : a + s.length + 1 ≤ hi
  aligned : a % 4 = 0
  has : mem.Has a (s ++ [0])

theorem StringAt.mono {lo lo' hi hi' : Nat} (h : StringAt mem lo hi a s) (hlo : lo' ≤ lo)
    (hhi : hi ≤ hi') : StringAt mem lo' hi' a s :=
  ⟨hlo.trans h.le, h.end_le.trans hhi, h.aligned, h.has⟩

/-- Every string is at its address. -/
theorem stringAt_putArgs (hfit : strBytes argv ≤ pos) (hpos : pos % 4 = 0) :
    List.Forall₂ (StringAt (putArgs mem pos argv) (pos - strBytes argv) pos)
      (argAddrs pos argv) argv := by
  induction argv generalizing mem pos with
  | nil => exact .nil
  | cons s argv ih =>
    have hroom := length_lt_room (s := s)
    have hmod := room_mod (s := s)
    rw [strBytes_cons] at hfit ⊢
    refine .cons ⟨by omega, by omega, by omega, fun i hi => ?_⟩ ?_
    · rw [putArgs, putArgs_above (by omega) (by omega), Memory.put_inside hi]
    · rw [← Nat.sub_sub]
      exact (ih (by omega) (by omega)).imp fun _ _ h => h.mono le_rfl (Nat.sub_le _ _)

/-- Each piece is below the ones before it. -/
theorem strPieces_spec (hfit : strBytes argv ≤ pos) :
    (strPieces pos argv).Pairwise (fun p q => q.1 + q.2 ≤ p.1) ∧
      ∀ p ∈ strPieces pos argv, pos - strBytes argv ≤ p.1 ∧ p.1 + p.2 ≤ pos := by
  induction argv generalizing pos with
  | nil => exact ⟨.nil, (by rintro _ ⟨⟩)⟩
  | cons s argv ih =>
    have hroom := length_lt_room (s := s)
    rw [strBytes_cons] at hfit ⊢
    obtain ⟨hpair, hrange⟩ := ih (show strBytes argv ≤ pos - room s by omega)
    refine ⟨.cons (fun q hq => (hrange q hq).2) hpair, fun p hp => ?_⟩
    rcases List.mem_cons.mp hp with rfl | hp
    · exact ⟨by simp only; omega, by simp only; omega⟩
    · have := hrange p hp
      omega

/-- Nothing else is written. -/
theorem putArgs_outside (hx : ∀ p ∈ strPieces pos argv, x < p.1 ∨ p.1 + p.2 ≤ x) :
    putArgs mem pos argv x = mem x := by
  induction argv generalizing mem pos with
  | nil => rfl
  | cons s argv ih =>
    rw [strPieces, List.forall_mem_cons] at hx
    rw [putArgs, ih hx.2, Memory.put_outside]
    simpa using hx.1

@[simp] theorem length_wordBytes {w : Nat} : (wordBytes w).length = 4 := rfl

@[simp] theorem length_words {l : List Nat} : (l.flatMap wordBytes).length = 4 * l.length := by
  induction l with
  | nil => rfl
  | cons w l ih =>
    rw [List.flatMap_cons, List.length_append, ih, length_wordBytes, List.length_cons]
    omega

@[simp] theorem length_ustack {ptrs : List Nat} : (ustack pos ptrs).length = ptrs.length + 4 := by
  simp [ustack]

theorem argMem_outside (hx : ∀ p ∈ argPieces sz argv, x < p.1 ∨ p.1 + p.2 ≤ x) :
    argMem mem sz argv x = mem x := by
  rw [argPieces, List.forall_mem_append] at hx
  rw [argMem, Memory.put_outside, putArgs_outside hx.1]
  rw [length_words, length_ustack, length_argAddrs]
  simpa using hx.2

/-- The pieces do not overlap, and are between the final stack pointer and the top. -/
theorem argPieces_spec (hfit : argBytes argv ≤ sz) :
    (argPieces sz argv).Pairwise (fun p q => q.1 + q.2 ≤ p.1) ∧ ∀ p ∈ argPieces sz argv,
    sz - argBytes argv ≤ p.1 ∧ p.1 + p.2 ≤ sz := by
  have hbytes : argBytes argv = strBytes argv + 4 * (argv.length + 4) := rfl
  obtain ⟨hpair, hrange⟩ := strPieces_spec (show strBytes argv ≤ sz by omega)
  refine ⟨List.pairwise_append.mpr ⟨hpair, List.pairwise_singleton .., fun p hp q hq => ?_⟩,
    fun p hp => ?_⟩
  · obtain rfl := List.mem_singleton.mp hq
    have := (hrange p hp).1
    simp only
    omega
  · rcases List.mem_append.mp hp with hp | hp
    · have := hrange p hp
      omega
    · obtain rfl := List.mem_singleton.mp hp
      simp only
      omega

/-! ## Reading it back -/

section

variable {r : Ram} {d lo hi w : Nat} (hbyte : ∀ x, lo ≤ x → x < hi → r.byte d x = some (mem x))

include hbyte

theorem word_eq (h : mem.Has a (wordBytes w)) (hw : w < 2 ^ 32) (hlo : lo ≤ a) (hhi : a + 4 ≤ hi) :
    r.word d a = some w := by
  have h0 := h 0 (by simp)
  have h1 := h 1 (by simp)
  have h2 := h 2 (by simp)
  have h3 := h 3 (by simp)
  simp only [wordBytes, List.getElem_cons_zero, List.getElem_cons_succ, Nat.add_zero] at h0 h1 h2 h3
  rw [Ram.word, hbyte a hlo (by omega), hbyte (a + 1) (by omega) (by omega), hbyte (a + 2)
    (by omega) (by omega), hbyte (a + 3) (by omega) (by omega), h0, h1, h2, h3]
  simp only [Option.bind_eq_bind, Option.bind_some, Option.pure_def, UInt8.toNat_ofNat',
    Option.some.injEq]
  omega

theorem string_eq {k : Nat} (h : mem.Has a (s ++ [0])) (hs : 0 ∉ s) (hk : s.length < k)
    (hlo : lo ≤ a) (hhi : a + s.length + 1 ≤ hi) : r.string d k a = some s := by
  induction s generalizing a k with
  | nil =>
    obtain ⟨k, rfl⟩ := Nat.exists_eq_succ_of_ne_zero (Nat.ne_zero_of_lt hk)
    have h0 : mem (a + 0) = 0 := h 0 (by simp)
    rw [Ram.string, hbyte a hlo (by rw [List.length_nil] at hhi; omega), ← Nat.add_zero a, h0]
    rfl
  | cons c s ih =>
    obtain ⟨k, rfl⟩ := Nat.exists_eq_succ_of_ne_zero (Nat.ne_zero_of_lt hk)
    rw [List.mem_cons, not_or] at hs
    rw [List.length_cons] at hk hhi
    have h0 : mem (a + 0) = c := h 0 (by simp)
    have hrest : mem.Has (a + 1) (s ++ [0]) := (Memory.has_append (l := [c])).mp h |>.2
    rw [Ram.string, hbyte a hlo (by omega), ih hrest hs.2 (by omega) (by omega) (by omega),
      ← Nat.add_zero a, h0]
    simp [Ne.symm hs.1]

/-- The pointers and the strings they point to. -/
theorem strings_eq {ptrs : List Nat} (hstr : List.Forall₂ (StringAt mem lo hi) ptrs argv)
    (hhi : hi ≤ 2 ^ 32) (hnul : ∀ s ∈ argv, 0 ∉ s)
    (hptrs : mem.Has a ((ptrs ++ [0]).flatMap wordBytes)) (hlo : lo ≤ a)
    (hend : a + 4 * (argv.length + 1) ≤ hi) : r.strings d argv.length a = some (ptrs.zip argv) := by
  induction hstr generalizing a with
  | nil =>
    rw [List.nil_append, List.flatMap_singleton] at hptrs
    rw [List.length_nil, Ram.strings, word_eq hbyte hptrs (by decide) hlo (by simpa using hend)]
    rfl
  | @cons ptr s ptrs argv hs _ ih =>
    rw [List.forall_mem_cons] at hnul
    rw [List.cons_append, List.flatMap_cons, Memory.has_append, length_wordBytes] at hptrs
    rw [List.length_cons] at hend ⊢
    have hlt := hs.end_le
    rw [Ram.strings, word_eq hbyte hptrs.1 (by omega) hlo (by omega),
      ih hnul.2 hptrs.2 (by omega) (by omega)]
    simp only [Option.bind_eq_bind, Option.bind_some]
    rw [string_eq hbyte hs.has hnul.1 (by omega) hs.le (by omega)]
    rfl

end

/-- What is written reads back as the arguments. -/
theorem args_argMem {r : Ram} {d : Nat} (hfit : argBytes argv ≤ sz) (hsz : sz < 2 ^ 32)
    (hmod : sz % 4 = 0) (hnul : ∀ s ∈ argv, 0 ∉ s)
    (hbyte : ∀ x, sz - argBytes argv ≤ x → x < sz → r.byte d x = some (argMem mem sz argv x)) :
    r.args d (sz - argBytes argv) = some ((argAddrs sz argv).zip argv) := by
  have hle : argBytes argv = strBytes argv + 4 * (argv.length + 4) := rfl
  have hesp : sz - argBytes argv + 12 = sub32 (sz - strBytes argv) ((argv.length + 1) * 4) := by
    rw [sub32]
    omega
  have hwords : (argMem mem sz argv).Has (sz - argBytes argv)
      ((ustack (sz - strBytes argv) (argAddrs sz argv)).flatMap wordBytes) := Memory.has_put
  have hstr : List.Forall₂ (StringAt (argMem mem sz argv) (sz - argBytes argv) sz)
      (argAddrs sz argv) argv := by
    refine (stringAt_putArgs (by omega) hmod).imp fun a s h =>
      ⟨?_, h.end_le, h.aligned, h.has.put ?_⟩
    · have := h.le
      omega
    · refine .inr ?_
      have := h.le
      rw [length_words, length_ustack, length_argAddrs]
      omega
  simp only [ustack, List.flatMap_cons, Memory.has_append, length_wordBytes,
    length_argAddrs] at hwords
  obtain ⟨hret, hargc, hargv, hptrs⟩ := hwords
  rw [Ram.args, word_eq hbyte hret (by decide) le_rfl (by omega),
    word_eq hbyte hargc (by omega) (by omega) (by omega),
    word_eq hbyte hargv (by rw [← hesp]; omega) (by omega) (by omega), ← hesp]
  simp only [Option.bind_eq_bind, Option.bind_some, and_self, if_true]
  exact strings_eq hbyte hstr hsz.le hnul hptrs (by omega) (by omega)

end

/-! ## Pushing -/

section

variable {I : Layout} {F : Finset Nat} {m : Mem} {S : Multiset Space}
  {lo : Multiset Nat} {sp : Space} {s : List UInt8} {argv : List (List UInt8)} {g pos sz : Nat}
  {ptrs : List Nat} {mem : Memory}

/-- The strings are C strings in user memory. -/
def UserStrings (argv : List (List UInt8)) : Prop := ∀ s ∈ argv, s.length < KERNBASE ∧ 0 ∉ s

/-- A page table entry for the stack, whose page is above `g`. -/
theorem stack_page {a : Nat} (hlo : (g + 1) * PGSIZE ≤ a) (hhi : a < (g + 2) * PGSIZE) :
    a / PGSIZE = g + 1 := by
  simp only [PGSIZE] at *
  omega

/-- `copyout` to the stack. -/
theorem wp_copyout_stack {a : Nat} {l : List UInt8} {Q : Bool → Mem → Prop} {E : Stop → Mem → Prop}
    (h : sp.Image I ((g + 2) * PGSIZE) (some g) mem) (hh : Heap F m (sp ::ₘ S) lo)
    (hpos : 0 < l.length) (hlo : (g + 1) * PGSIZE ≤ a) (hhi : a + l.length ≤ (g + 2) * PGSIZE)
    (hQ : ∀ sp' m', sp'.dir = sp.dir → Heap F m' (sp' ::ₘ S) lo →
      sp'.Image I ((g + 2) * PGSIZE) (some g) (mem.put a l) → Q true m') :
      wp (copyout sp.dir a l) Q E m := by
  have hpage := stack_page hlo (by omega)
  refine h.wp_copyout hh ?_ (by simp [hpage]) ?_ hpos hQ
  · rw [hpage]
    exact Nat.mul_lt_mul_of_pos_right (Nat.lt_succ_self _) (by simp [PGSIZE])
  · simp only [PGSIZE] at *
    omega

/-- `copyout` to a range that starts below the stack and ends in it or just below it. -/
theorem wp_copyout_guard {a : Nat} {l : List UInt8} {Q : Bool → Mem → Prop} {E : Stop → Mem → Prop}
    (h : sp.Image I ((g + 2) * PGSIZE) (some g) mem) (hh : Heap F m (sp ::ₘ S) lo)
    (hlo : a < (g + 1) * PGSIZE) (hend : (g + 1) * PGSIZE ≤ a + l.length + 3)
    (hhi : a + l.length ≤ (g + 2) * PGSIZE) (hpos : 0 < l.length)
    (hQ : ∀ sp' m', sp'.dir = sp.dir → Heap F m' (sp' ::ₘ S) lo → Q false m') :
    wp (copyout sp.dir a l) Q E m := by
  refine h.wp_copyout_closed hh hhi (w := g) ?_ rfl hQ
  by_cases ha : g * PGSIZE ≤ a
  · refine ⟨a, le_rfl, by omega, ?_⟩
    simp only [PGSIZE] at *
    omega
  · refine ⟨g * PGSIZE, by omega, ?_, Nat.mul_div_cancel _ (by simp [PGSIZE])⟩
    simp only [PGSIZE] at *
    omega

/-- What has been done when the loop over the arguments is left: all arguments are there, or
they do not fit. -/
def Pushed (I : Layout) (F : Finset Nat) (S : Multiset Space) (lo : Multiset Nat) (d g : Nat)
    (mem : Memory) (argv : List (List UInt8)) (pos : Nat) (ptrs : List Nat)
    (r : Option (Nat × List Nat)) (m' : Mem) : Prop :=
  ∃ sp' : Space, sp'.dir = d ∧ Heap F m' (sp' ::ₘ S) lo ∧
    match r with
    | none => ¬(ptrs.length + argv.length ≤ MAXARG ∧ (g + 1) * PGSIZE + strBytes argv ≤ pos)
    | some (pos', ptrs') =>
      ptrs.length + argv.length ≤ MAXARG ∧ (g + 1) * PGSIZE + strBytes argv ≤ pos ∧
      pos' = pos - strBytes argv ∧ ptrs' = ptrs ++ argAddrs pos argv ∧
      sp'.Image I ((g + 2) * PGSIZE) (some g) (putArgs mem pos argv)

theorem wp_pushArgs (h : sp.Image I ((g + 2) * PGSIZE) (some g) mem) (hh : Heap F m (sp ::ₘ S) lo)
    (hargv : UserStrings argv) (hmod : pos % 4 = 0) (hlo : (g + 1) * PGSIZE ≤ pos)
    (hhi : pos ≤ (g + 2) * PGSIZE) (hptrs : ptrs.length ≤ MAXARG) :
    wp (pushArgs sp.dir argv pos ptrs)
      (fun r m' => ¬Overlong I ((g + 1) * PGSIZE) pos ptrs.length argv ∧
        Pushed I F S lo sp.dir g mem argv pos ptrs r m')
      (fun e _ => e = .panic "PAGE FAULT" ∧
        Overlong I ((g + 1) * PGSIZE) pos ptrs.length argv) m := by
  have hsize := h.size
  have hpos32 : pos < 2 ^ 32 := by
    simp only [KERNBASE, KERNPAGE, PGSIZE] at *
    omega
  have hpage : PGSIZE ≤ pos := by
    rw [Nat.succ_mul] at hlo
    omega
  induction argv generalizing m sp mem pos ptrs with
  | nil =>
    exact ⟨not_overlong_nil, sp, rfl, hh, by simpa using hptrs, by simpa using hlo,
      rfl, by simp [argAddrs], h⟩
  | cons s argv ih =>
    have hroom := length_lt_room (s := s)
    have hroom' := room_le_length (s := s)
    have hsmod := room_mod (s := s)
    rw [UserStrings, List.forall_mem_cons] at hargv
    rw [pushArgs, overlong_cons]
    by_cases hmax : ptrs.length ≥ MAXARG
    · rw [if_pos hmax]
      refine ⟨?_, sp, rfl, hh, ?_⟩
      · rintro (⟨hk, -⟩ | ⟨-, l, s', l', -, hk, -⟩) <;> omega
      · rw [List.length_cons]
        omega
    simp only [if_neg hmax, wp_bind, wp_ite, wp_pure]
    by_cases hfit : (g + 1) * PGSIZE + room s ≤ pos
    · -- the string goes on the stack, and the loop goes on
      rw [push_eq hmod hpos32 (by omega)]
      refine wp_copyout_stack h hh (by simp) (by omega) (by simp; omega) fun sp1 m1 hdir hh1 h1 =>
        ⟨fun _ => ?_, ?_⟩
      · rw [← hdir]
        have hnext := ih h1 hh1 hargv.2 (show (pos - room s) % 4 = 0 by omega) (by omega)
          (by omega) (show (ptrs ++ [pos - room s]).length ≤ MAXARG by simp; omega) (by omega)
          (by rw [Nat.succ_mul] at hfit; omega)
        rw [List.length_append, List.length_singleton] at hnext
        refine hnext.mono ?_ ?_
        · rintro r m' ⟨hnot, sp', hdir', hh', hres⟩
          refine ⟨?_, sp', hdir', hh', ?_⟩
          · rintro (⟨-, -, hlong, -⟩ | ⟨-, hlong⟩)
            · omega
            · exact hnot hlong
          · rw [strBytes_cons, List.length_cons]
            cases r with
            | none =>
              simp only [List.length_append, List.length_singleton] at hres
              exact fun hfit' => hres (by omega)
            | some r =>
              simp only [List.length_append, List.length_singleton] at hres
              obtain ⟨hlen, hbytes, hpos', hptrs', h'⟩ := hres
              exact ⟨by omega, by omega, by omega, by rw [hptrs']; simp [argAddrs], h'⟩
        · rintro e _ ⟨he, hlong⟩
          exact ⟨he, .inr ⟨hfit, hlong⟩⟩
      · exact fun hn => absurd rfl hn
    · have hnofit : ¬(ptrs.length + (s :: argv).length ≤ MAXARG ∧
          (g + 1) * PGSIZE + strBytes (s :: argv) ≤ pos) := by
        rw [strBytes_cons]
        omega
      by_cases hwrap : room s ≤ pos
      · -- it runs into the closed page
        rw [push_eq hmod hpos32 hwrap]
        refine wp_copyout_guard h hh (by omega) (by simp; omega) (by simp; omega) (by simp)
          fun sp1 m1 hdir hh1 => ⟨(by rintro ⟨⟩), fun _ => ⟨?_, sp1, hdir, hh1, hnofit⟩⟩
        rintro (⟨-, -, hlong, -⟩ | ⟨hfit', -⟩) <;> omega
      · -- the stack pointer wraps around
        have hlt : pos < s.length + 1 := by omega
        obtain ⟨habove, habove'⟩ := push_wraps hpage hargv.1.1 hlt
        refine h.wp_copyout_above hh habove habove' (by simp)
          (fun hgap => ⟨rfl, .inl ⟨by omega, hlo, hlt, hgap⟩⟩) fun hgap =>
          ⟨(by rintro ⟨⟩), fun _ => ⟨?_, sp, rfl, hh, hnofit⟩⟩
        rintro (⟨-, -, -, hg⟩ | ⟨hfit', -⟩)
        · exact hgap hg
        · omega

/-- What has been done when all of it has been pushed: it is there, or it does not fit. -/
def Copied (I : Layout) (F : Finset Nat) (S : Multiset Space) (lo : Multiset Nat) (d g : Nat)
    (mem : Memory) (argv : List (List UInt8)) (r : Option Nat) (m' : Mem) : Prop :=
  ∃ sp' : Space, sp'.dir = d ∧ Heap F m' (sp' ::ₘ S) lo ∧
    match r with
    | none => ¬Fits argv
    | some esp => Fits argv ∧ esp = (g + 2) * PGSIZE - argBytes argv ∧
      sp'.Image I ((g + 2) * PGSIZE) (some g) (argMem mem ((g + 2) * PGSIZE) argv)

/-- The arguments go on the stack if they fit. -/
theorem wp_copyArgs (h : sp.Image I ((g + 2) * PGSIZE) (some g) mem) (hh : Heap F m (sp ::ₘ S) lo)
    (hargv : UserStrings argv) :
    wp (copyArgs sp.dir ((g + 2) * PGSIZE) argv)
      (fun r m' => ¬Overlong I ((g + 1) * PGSIZE) ((g + 2) * PGSIZE) 0 argv ∧
        Copied I F S lo sp.dir g mem argv r m')
      (fun e _ => e = .panic "PAGE FAULT" ∧ Overlong I ((g + 1) * PGSIZE) ((g + 2) * PGSIZE) 0 argv)
      m := by
  have hsize := h.size
  have htop : (g + 2) * PGSIZE = (g + 1) * PGSIZE + PGSIZE := Nat.succ_mul _ _
  have hmod : (g + 2) * PGSIZE % 4 = 0 := by
    simp only [PGSIZE]
    omega
  rw [copyArgs, wp_bind]
  refine (wp_pushArgs h hh hargv hmod (by omega) le_rfl
    (show List.length [] ≤ MAXARG from Nat.zero_le _)).mono ?_ fun _ _ h => h
  rintro r m1 ⟨hnot, sp1, hdir, hh1, hres⟩
  cases r with
  | none =>
    refine ⟨hnot, sp1, hdir, hh1, fun hfit => hres ⟨by simpa using hfit.1, ?_⟩⟩
    have := hfit.2
    rw [argBytes] at this
    omega
  | some r =>
    obtain ⟨pos, ptrs⟩ := r
    obtain ⟨hlen, hbytes, rfl, rfl, h1⟩ := hres
    rw [List.length_nil, Nat.zero_add] at hlen
    simp only [List.nil_append, wp_bind, wp_ite, wp_pure, length_argAddrs]
    have hbytes' : argBytes argv = strBytes argv + 4 * (argv.length + 4) := rfl
    have hesp : sub32 ((g + 2) * PGSIZE - strBytes argv) ((3 + argv.length + 1) * 4) =
        (g + 2) * PGSIZE - argBytes argv := by
      simp only [sub32, KERNBASE, KERNPAGE, PGSIZE, MAXARG] at *
      omega
    have hwords : ((ustack ((g + 2) * PGSIZE - strBytes argv)
        (argAddrs ((g + 2) * PGSIZE) argv)).flatMap wordBytes).length = 4 * (argv.length + 4) := by
      rw [length_words, length_ustack, length_argAddrs]
    rw [hesp, ← hdir]
    by_cases hfit : argBytes argv ≤ PGSIZE
    · refine wp_copyout_stack h1 hh1 (by omega) (by omega) (by omega) fun sp2 m2 hdir2 hh2 h2 =>
        ⟨fun _ => ⟨hnot, sp2, hdir2, hh2, ⟨hlen, hfit⟩, rfl, h2⟩, fun hn => absurd rfl hn⟩
    · have hmax : 4 * (argv.length + 4) ≤ PGSIZE := by
        simp only [MAXARG, PGSIZE] at *
        omega
      have hbase : (g + 1) * PGSIZE = g * PGSIZE + PGSIZE := Nat.succ_mul _ _
      refine wp_copyout_guard h1 hh1 (by omega) (by omega) (by omega) (by omega)
        fun sp2 m2 hdir2 hh2 =>
        ⟨(by rintro ⟨⟩), fun _ => ⟨hnot, sp2, hdir2, hh2, fun hf => hfit hf.2⟩⟩

end

end Caller

end Xv6Rework
