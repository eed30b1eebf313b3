import Xv6Rework.Lib.Memory
import Xv6Rework.Mem.Vm

/-!
# The arguments of system calls

`fetchint`, `fetchstr`, `argint`, `argptr` and `argstr` of `syscall/syscall.c`.  The arguments
are on the stack of the process, whose stack pointer is any word: the address of an argument is
computed from it with wrap-around.  A string is not copied; the result of `fetchstr` is its
address and its length.

The state of these functions is the list of the addresses that they have read from the memory
of the process, so that it can be said where they are.
-/

namespace Xv6Rework

open Prog Vm

/-- What the functions use of the calling process: `sz`, `tf->esp` and its memory. -/
structure UserProc where
  sz : Nat
  esp : Nat
  mem : Memory

/-- Code that reads the memory of the process.  The state is where it has read. -/
abbrev ArgM := Prog (List Nat)

namespace UserProc

/-! ## The code -/

variable (u : UserProc)

/-- Read a byte. -/
def load (a : Nat) : ArgM UInt8 := do
  update fun l => l ++ [a]
  pure (u.mem a)

/-- `fetchint`: the word, or `none` for -1. -/
def fetchint (addr : Nat) : ArgM (Option Nat) := do
  if addr ≥ u.sz ∨ add32 addr 4 > u.sz then
    pure none
  else
    let b0 ← u.load addr
    let b1 ← u.load (add32 addr 1)
    let b2 ← u.load (add32 addr 2)
    let b3 ← u.load (add32 addr 3)
    pure (some (b0.toNat + 256 * b1.toNat + 256 ^ 2 * b2.toNat + 256 ^ 3 * b3.toNat))

/-- The loop of `fetchstr`: where the terminator is. -/
def fetchstrLoop : Nat → Nat → ArgM (Option Nat)
  | 0, _ => stop .hang
  | k + 1, s => do
    if s < u.sz then
      if (← u.load s) = 0 then
        pure (some s)
      else
        fetchstrLoop k (add32 s 1)
    else
      pure none

/-- `fetchstr`: what it stores to `*pp` and the length, or `none` for -1. -/
def fetchstr (addr : Nat) : ArgM (Option (Nat × Nat)) := do
  if addr ≥ u.sz then
    pure none
  else
    match (← fetchstrLoop u (2 ^ 32) addr) with
    | none => pure none
    | some s => pure (some (addr, sub32 s addr))

/-- `argint`. -/
def argint (n : Nat) : ArgM (Option Nat) := u.fetchint (add32 (add32 u.esp 4) (4 * n))

/-- `argptr`: what it stores to `*pp`, or `none` for -1. -/
def argptr (n : Nat) (size : Int) : ArgM (Option Nat) := do
  match (← u.argint n) with
  | none => pure none
  | some i =>
    if size < 0 ∨ i ≥ u.sz ∨ add32 i size.toNat > u.sz then
      pure none
    else
      pure (some i)

/-- `argstr`. -/
def argstr (n : Nat) : ArgM (Option (Nat × Nat)) := do
  match (← u.argint n) with
  | none => pure none
  | some addr => u.fetchstr addr

/-! ## Where they read -/

/-- Everything that has been read is in the process. -/
def Inside (l : List Nat) : Prop := ∀ a ∈ l, a < u.sz

/-- The string at `p` has `len` characters and ends in the process. -/
structure StringIn (p len : Nat) : Prop where
  inside : p + len < u.sz
  chars : ∀ i < len, u.mem (p + i) ≠ 0
  terminated : u.mem (p + len) = 0

section

variable {u : UserProc} {l : List Nat} {addr n s k : Nat} {size : Int} {E : Stop → List Nat → Prop}

theorem Inside.concat (h : u.Inside l) (ha : addr < u.sz) : u.Inside (l ++ [addr]) := by
  intro a hmem
  rcases List.mem_append.1 hmem with hmem | hmem
  · exact h a hmem
  · rwa [List.mem_singleton.1 hmem]

theorem wp_load {Q : UInt8 → List Nat → Prop} (h : u.Inside l) (ha : addr < u.sz)
    (ok : ∀ l', u.Inside l' → Q (u.mem addr) l') : wp (u.load addr) Q E l :=
  ok _ (h.concat ha)

/-- The check of `fetchint` covers all four bytes, as no sum wraps below `sz`. -/
theorem wp_fetchint (hsz : u.sz < KERNBASE) (h : u.Inside l) {Q : Option Nat → List Nat → Prop}
    (ok : ∀ r l', u.Inside l' → Q r l') : wp (u.fetchint addr) Q E l := by
  have hbase := kernbase_eq
  simp only [fetchint, wp_ite, wp_bind, wp_pure]
  refine ⟨fun _ => ok none l h, fun hnot => ?_⟩
  rw [not_or, add32] at hnot
  have hlt : ∀ i < 4, add32 addr i < u.sz := by
    intro i hi
    rw [add32]
    omega
  refine wp_load h (by omega) fun l1 h1 => wp_load h1 (hlt 1 (by decide)) fun l2 h2 => ?_
  exact wp_load h2 (hlt 2 (by decide)) fun l3 h3 => wp_load h3 (hlt 3 (by decide))
    fun l4 h4 => ok _ l4 h4

/-- The loop finds the first zero, or comes to the end of the process. -/
theorem wp_fetchstrLoop (hsz : u.sz < KERNBASE) (h : u.Inside l) {Q : Option Nat → List Nat → Prop}
    (hk : u.sz < s + k) (hs : s ≤ u.sz)
    (none : ∀ l', u.Inside l' → (∀ x, s ≤ x → x < u.sz → u.mem x ≠ 0) → Q none l')
    (some : ∀ len l', u.Inside l' → u.StringIn s len → Q (some (s + len)) l') :
    wp (fetchstrLoop u k s) Q E l := by
  have hbase := kernbase_eq
  induction k generalizing s l with
  | zero => omega
  | succ k ih =>
    simp only [fetchstrLoop, wp_ite, wp_bind, wp_pure]
    refine ⟨fun hlt => wp_load h hlt fun l1 h1 => ⟨fun hzero => ?_, fun hne => ?_⟩, fun hge => ?_⟩
    · exact some 0 l1 h1 ⟨hlt, fun i hi => absurd hi (Nat.not_lt_zero i), hzero⟩
    · have hnext : add32 s 1 = s + 1 := Nat.mod_eq_of_lt (by omega)
      rw [hnext]
      refine ih h1 (by omega) (by omega) (fun l' h' hno => none l' h' fun x hx hlt' => ?_)
        fun len l' h' hstr => ?_
      · rcases Nat.eq_or_lt_of_le hx with rfl | hx
        · exact hne
        · exact hno x hx hlt'
      · rw [Nat.add_assoc, Nat.add_comm 1]
        refine some (len + 1) l' h' ⟨?_, fun i hi => ?_, ?_⟩
        · have := hstr.inside
          omega
        · cases i with
          | zero => exact hne
          | succ i =>
            have := hstr.chars i (Nat.lt_of_succ_lt_succ hi)
            rwa [Nat.add_assoc, Nat.add_comm 1] at this
        · have := hstr.terminated
          rwa [Nat.add_assoc, Nat.add_comm 1] at this
    · exact none l h fun x hx hlt => absurd hlt (by omega)

theorem wp_fetchstr (hsz : u.sz < KERNBASE) (h : u.Inside l)
    {Q : Option (Nat × Nat) → List Nat → Prop}
    (none : ∀ l', u.Inside l' → (∀ x, addr ≤ x → x < u.sz → u.mem x ≠ 0) → Q none l')
    (some : ∀ len l', u.Inside l' → u.StringIn addr len → Q (some (addr, len)) l') :
    wp (u.fetchstr addr) Q E l := by
  have hbase := kernbase_eq
  simp only [fetchstr, wp_ite, wp_bind, wp_pure]
  refine ⟨fun hge => none l h fun x hx hlt => absurd hlt (by omega), fun hlt => ?_⟩
  refine wp_fetchstrLoop hsz h (by omega) (by omega) none fun len l' h' hstr => ?_
  have hlen : sub32 (addr + len) addr = len := by
    have := hstr.inside
    rw [sub32]
    omega
  simp only [wp_pure, hlen]
  exact some len l' h' hstr

theorem wp_argptr (hsz : u.sz < KERNBASE) (h : u.Inside l) (hsize : size < 2 ^ 31) :
    wp (u.argptr n size)
      (fun r l' => u.Inside l' ∧ ∀ p, r = some p → 0 ≤ size ∧ (p : Int) + size ≤ u.sz) E l := by
  have hbase := kernbase_eq
  rw [argptr, wp_bind]
  refine wp_fetchint hsz h fun r l' h' => ?_
  cases r with
  | none => exact ⟨h', (by rintro _ ⟨⟩)⟩
  | some i =>
    simp only [wp_ite, wp_pure]
    refine ⟨fun _ => ⟨h', (by rintro _ ⟨⟩)⟩, fun hnot => ⟨h', ?_⟩⟩
    rintro p ⟨⟩
    simp only [not_or, add32] at hnot
    omega

/-- What `argstr` gives is a string of the process, and only that keeps it from giving one. -/
theorem wp_argstr (hsz : u.sz < KERNBASE) (h : u.Inside l) :
    wp (u.argstr n) (fun r l' => u.Inside l' ∧ (∀ p len, r = some (p, len) → u.StringIn p len) ∧
      ∀ addr l1, u.argint n l = (.ok (some addr), l1) →
        (r ≠ none ↔ addr < u.sz ∧ ∃ x, addr ≤ x ∧ x < u.sz ∧ u.mem x = 0)) E l := by
  have hint : wp (u.argint n) (fun _ l' => u.Inside l') (fun _ _ => False) l :=
    wp_fetchint hsz h fun _ _ h' => h'
  obtain ⟨r, l1, hrun, h1⟩ := hint.exists_ok
  rw [argstr, wp_bind, wp_of_ok hrun]
  cases r with
  | none =>
    refine ⟨h1, (by rintro _ _ ⟨⟩), fun addr l1' hrun' => ?_⟩
    cases hrun.symm.trans hrun'
  | some addr =>
    refine wp_fetchstr hsz h1 (fun l' h' hno => ⟨h', (by rintro _ _ ⟨⟩), ?_⟩)
      fun len l' h' hstr => ⟨h', ?_, ?_⟩
    · intro addr' l1' hrun'
      cases hrun.symm.trans hrun'
      refine iff_of_false (fun hne => hne rfl) ?_
      rintro ⟨-, x, hx, hlt, hzero⟩
      exact hno x hx hlt hzero
    · rintro p len' ⟨⟩
      exact hstr
    · intro addr' l1' hrun'
      cases hrun.symm.trans hrun'
      have hin := hstr.inside
      exact iff_of_true (by rintro ⟨⟩) ⟨by omega, addr + len, Nat.le_add_right .., hin,
        hstr.terminated⟩

/-- The three ways to an argument return for every stack pointer and every memory, and stay in
the process: what they read, the range of a pointer, and a string with its terminator. -/
theorem args_inside (u : UserProc) (n : Nat) (size : Int) (hsz : u.sz < KERNBASE)
    (hsize : size < 2 ^ 31) :
    (∃ r l, u.argint n [] = (.ok r, l) ∧ u.Inside l) ∧
    (∃ r l, u.argptr n size [] = (.ok r, l) ∧ u.Inside l ∧
      ∀ p, r = some p → 0 ≤ size ∧ (p : Int) + size ≤ u.sz) ∧
    ∃ r l, u.argstr n [] = (.ok r, l) ∧ u.Inside l ∧
      (∀ p len, r = some (p, len) → u.StringIn p len) ∧
      ∀ addr l1, u.argint n [] = (.ok (some addr), l1) →
        (r ≠ none ↔ addr < u.sz ∧ ∃ x, addr ≤ x ∧ x < u.sz ∧ u.mem x = 0) := by
  have hnil : u.Inside [] := fun _ h => nomatch h
  have hint : wp (u.argint n) (fun _ l' => u.Inside l') (fun _ _ => False) [] :=
    wp_fetchint hsz hnil fun _ _ h' => h'
  exact ⟨hint.exists_ok, (wp_argptr hsz hnil hsize).exists_ok, (wp_argstr hsz hnil).exists_ok⟩

end

/-- A process whose stack pointer is at the end of memory: the address of its first argument
wraps to 0, where there is the word 4 and then the string `a`. -/
def wrapped : UserProc := ⟨6, 2 ^ 32 - 4, Memory.put (fun _ => 0) 0 [4, 0, 0, 0, 97]⟩

theorem args_inside_wrapped : ∃ r l, wrapped.argstr 0 [] = (.ok r, l) ∧ wrapped.Inside l ∧
    (r ≠ none ↔ 4 < wrapped.sz ∧ ∃ x, 4 ≤ x ∧ x < wrapped.sz ∧ wrapped.mem x = 0) := by
  obtain ⟨-, -, r, l, hrun, hin, -, hiff⟩ := args_inside wrapped 0 0
    (by simp [wrapped, KERNBASE, KERNPAGE, PGSIZE]) (by decide)
  exact ⟨r, l, hrun, hin, hiff 4 _ (run_eq (by decide +kernel))⟩

end UserProc

end Xv6Rework
