import Xv6Rework.Lib.Memory
import Xv6Rework.Mem.Vm

/-!
# The two `memmove`s

`memmove` of `kernel/mm/string.c` looks at how the ranges lie and copies backwards where the
source is below the destination and reaches into it.  That of `user/ulib.c` always copies
forwards: where the ranges overlap that way it reads bytes that it has already overwritten, and
the first `dst - src` bytes of the source are repeated over the destination.

Addresses are words; a pointer may wrap to 0 at the end of memory, but no access does.
-/

namespace Xv6Rework

open Function
open Vm (add32 sub32)

/-! ## The code -/

/-- `while(n-- > 0) *d++ = *s++;` -/
def copyForward : Nat → Nat → Nat → Memory → Memory
  | 0, _, _, mem => mem
  | n + 1, d, s, mem => copyForward n (add32 d 1) (add32 s 1) (update mem d (mem s))

/-- `while(n-- > 0) *--d = *--s;` -/
def copyBackward : Nat → Nat → Nat → Memory → Memory
  | 0, _, _, mem => mem
  | n + 1, d, s, mem =>
    let s := sub32 s 1
    let d := sub32 d 1
    copyBackward n d s (update mem d (mem s))

namespace StringC

/-- `memmove`, `string.c`; `n` is unsigned. -/
def memmove (dst src n : Nat) (mem : Memory) : Memory :=
  if src < dst ∧ add32 src n > dst then
    copyBackward n (add32 dst n) (add32 src n) mem
  else
    copyForward n dst src mem

end StringC

namespace UlibC

/-- `memmove`, `ulib.c`; `n` is signed. -/
def memmove (dst src : Nat) (n : Int) (mem : Memory) : Memory := copyForward n.toNat dst src mem

end UlibC

/-! ## What is meant -/

/-- The memory with the bytes of `[src, src + n)` moved to `dst`. -/
def Memory.moved (mem : Memory) (dst src n : Nat) : Memory := fun x =>
  if dst ≤ x ∧ x < dst + n then mem (src + (x - dst)) else mem x

/-- The memory with the first `dst - src` bytes at `src` repeated over the destination. -/
def Memory.repeated (mem : Memory) (dst src n : Nat) : Memory := fun x =>
  if dst ≤ x ∧ x < dst + n then mem (src + (x - dst) % (dst - src)) else mem x

section

variable {mem : Memory} {dst src n k : Nat}

theorem Memory.moved_zero : mem.moved dst src 0 = mem := by
  funext x
  exact if_neg (by omega)

theorem Memory.repeated_zero : mem.repeated dst src 0 = mem := by
  funext x
  exact if_neg (by omega)

/-- The next byte of a repetition is the byte that the next address of the source has by then. -/
theorem Memory.repeated_succ (h : src < dst) :
    mem.repeated dst src (k + 1) =
      update (mem.repeated dst src k) (dst + k) (mem.repeated dst src k (src + k)) := by
  funext x
  by_cases hx : x = dst + k
  · subst hx
    rw [update_self, repeated, if_pos (by omega), repeated, Nat.add_sub_cancel_left]
    by_cases hk : k < dst - src
    · rw [if_neg (by omega), Nat.mod_eq_of_lt hk]
    · have hback : src + k - dst = k - (dst - src) := by omega
      rw [if_pos (by omega), hback, ← Nat.mod_eq_sub_mod (by omega)]
  · rw [update_of_ne hx, repeated, repeated]
    exact if_congr (by omega) rfl rfl

/-- Copying forwards to an address that is not above the source. -/
theorem Memory.moved_succ (h : dst ≤ src) :
    mem.moved dst src (k + 1) =
      update (mem.moved dst src k) (dst + k) (mem.moved dst src k (src + k)) := by
  funext x
  by_cases hx : x = dst + k
  · subst hx
    rw [update_self, moved, if_pos (by omega), moved, if_neg (by omega),
      Nat.add_sub_cancel_left]
  · rw [update_of_ne hx, moved, moved]
    exact if_congr (by omega) rfl rfl

/-- Where the ranges are apart nothing is repeated. -/
theorem Memory.repeated_eq_moved (h : src + n ≤ dst) :
    mem.repeated dst src n = mem.moved dst src n := by
  funext x
  rw [repeated, moved]
  split
  next hx => rw [Nat.mod_eq_of_lt (by omega)]
  next => rfl

/-- What is repeated is what was meant if the source repeats itself. -/
theorem Memory.repeated_eq_moved_iff : mem.repeated dst src n = mem.moved dst src n ↔
    ∀ i < n, mem (src + i) = mem (src + i % (dst - src)) := by
  constructor
  · intro h i hi
    have hx := congrFun h (dst + i)
    rw [repeated, moved, if_pos (by omega), if_pos (by omega), Nat.add_sub_cancel_left] at hx
    exact hx.symm
  · intro h
    funext x
    rw [repeated, moved]
    split
    next hx => exact (h _ (by omega)).symm
    next => rfl

/-! ## What the loops do -/

/-- The loop that copies forwards, by what the memory has become after each of its rounds. -/
theorem copyForward_eq {f : Nat → Memory}
    (hstep : ∀ k, f (k + 1) = update (f k) (dst + k) (f k (src + k)))
    (hdst : dst + n ≤ 2 ^ 32) (hsrc : src + n ≤ 2 ^ 32) : copyForward n dst src (f 0) = f n := by
  -- the loop from round `k` on
  have hrun : ∀ m k, k + m = n → copyForward m ((dst + k) % 2 ^ 32) ((src + k) % 2 ^ 32)
      (f k) = f n := by
    intro m
    induction m with
    | zero =>
      rintro k rfl
      rfl
    | succ m ih =>
      intro k hk
      have hnext := ih (k + 1) (by omega)
      rw [hstep, ← Nat.add_assoc, ← Nat.add_assoc] at hnext
      rw [copyForward, add32, add32, Nat.mod_add_mod, Nat.mod_add_mod,
        Nat.mod_eq_of_lt (show dst + k < 2 ^ 32 by omega),
        Nat.mod_eq_of_lt (show src + k < 2 ^ 32 by omega)]
      exact hnext
  cases n with
  | zero => rfl
  | succ n =>
    have := hrun (n + 1) 0 (Nat.zero_add _)
    rwa [Nat.add_zero, Nat.add_zero, Nat.mod_eq_of_lt (by omega), Nat.mod_eq_of_lt
      (by omega)] at this

theorem copyForward_of_le (h : dst ≤ src) (hdst : dst + n ≤ 2 ^ 32) (hsrc : src + n ≤ 2 ^ 32) :
    copyForward n dst src mem = mem.moved dst src n := by
  have := copyForward_eq (f := mem.moved dst src) (fun _ => Memory.moved_succ h) hdst hsrc
  rwa [Memory.moved_zero] at this

theorem copyForward_of_lt (h : src < dst) (hdst : dst + n ≤ 2 ^ 32) (hsrc : src + n ≤ 2 ^ 32) :
    copyForward n dst src mem = mem.repeated dst src n := by
  have := copyForward_eq (f := mem.repeated dst src) (fun _ => Memory.repeated_succ h) hdst hsrc
  rwa [Memory.repeated_zero] at this

/-- The loop that copies backwards: the bytes from `n` on have been moved already. -/
theorem copyBackward_eq (h : src < dst) (hdst : dst + n ≤ 2 ^ 32) {mem' : Memory}
    (hmem : ∀ x < dst + n, mem' x = mem x) :
    copyBackward n ((dst + n) % 2 ^ 32) ((src + n) % 2 ^ 32) mem' =
      fun x => if dst ≤ x ∧ x < dst + n then mem (src + (x - dst)) else mem' x := by
  induction n generalizing mem' with
  | zero =>
    funext x
    exact (if_neg (by omega)).symm
  | succ n ih =>
    have hsub : ∀ a, a + (n + 1) ≤ 2 ^ 32 → sub32 ((a + (n + 1)) % 2 ^ 32) 1 =
        (a + n) % 2 ^ 32 := by
      intro a ha
      rw [sub32]
      omega
    rw [copyBackward, hsub dst hdst, hsub src (by omega), Nat.mod_eq_of_lt
      (show dst + n < 2 ^ 32 by omega), Nat.mod_eq_of_lt (show src + n < 2 ^ 32 by omega), hmem
      (src + n) (by omega)]
    have hmem' : ∀ x < dst + n, update mem' (dst + n) (mem (src + n)) x = mem x :=
        fun x hx => by
      rw [update_of_ne (by omega), hmem x (by omega)]
    have hrest := ih (by omega) hmem'
    rw [Nat.mod_eq_of_lt (show dst + n < 2 ^ 32 by omega), Nat.mod_eq_of_lt
      (show src + n < 2 ^ 32 by omega)] at hrest
    rw [hrest]
    funext x
    by_cases hx : x = dst + n
    · subst hx
      rw [if_neg (by omega), update_self, if_pos (by omega), Nat.add_sub_cancel_left]
    · rw [update_of_ne hx]
      exact if_congr (by omega) rfl rfl

/-! ## The calls -/

/-- The kernel's `memmove` moves. -/
theorem StringC.memmove_eq (hdst : dst + n ≤ 2 ^ 32) (hsrc : src + n ≤ 2 ^ 32) :
    StringC.memmove dst src n mem = mem.moved dst src n := by
  rw [StringC.memmove]
  split
  next h =>
    rw [add32, add32, copyBackward_eq h.1 hdst fun _ _ => rfl]
    rfl
  next h =>
    rcases Nat.lt_or_ge src dst with hlt | hge
    · -- the sum does not wrap, as the destination is above the source
      have happart : src + n ≤ dst := by
        by_contra hover
        refine h ⟨hlt, ?_⟩
        rw [add32, Nat.mod_eq_of_lt (by omega)]
        omega
      rw [copyForward_of_lt hlt hdst hsrc, Memory.repeated_eq_moved happart]
    · exact copyForward_of_le hge hdst hsrc

/-- The two agree, and move, exactly if the source is not below the destination or repeats
itself with the distance between them; so it is where they do not overlap. -/
theorem memmove_agree_iff (hdst : dst + n ≤ 2 ^ 32) (hsrc : src + n ≤ 2 ^ 32) :
    (StringC.memmove dst src n mem = mem.moved dst src n ∧
      UlibC.memmove dst src n mem = mem.moved dst src n) ↔
      (src < dst → ∀ i < n, mem (src + i) = mem (src + i % (dst - src))) := by
  rw [and_iff_right (StringC.memmove_eq hdst hsrc), UlibC.memmove, Int.toNat_natCast]
  rcases Nat.lt_or_ge src dst with hlt | hge
  · rw [copyForward_of_lt hlt hdst hsrc, Memory.repeated_eq_moved_iff]
    exact ⟨fun h _ => h, fun h => h hlt⟩
  · rw [copyForward_of_le hge hdst hsrc]
    exact iff_of_true rfl fun hlt => absurd hlt (by omega)

end

/-- A memory in which no two bytes near each other are equal. -/
def Memory.ramp : Memory := fun x => .ofNat x

/-- Moving down is the same with both, up to the end of memory. -/
theorem memmove_agree_down : StringC.memmove (2 ^ 32 - 3) (2 ^ 32 - 2) 2 Memory.ramp =
      Memory.ramp.moved (2 ^ 32 - 3) (2 ^ 32 - 2) 2 ∧
    UlibC.memmove (2 ^ 32 - 3) (2 ^ 32 - 2) (2 : Nat) Memory.ramp =
      Memory.ramp.moved (2 ^ 32 - 3) (2 ^ 32 - 2) 2 :=
  (memmove_agree_iff (by decide) (by decide)).2 fun h => absurd h (by decide)

/-- Two bytes moved up by one. -/
theorem not_memmove_agree_up : StringC.memmove 1 0 2 Memory.ramp 2 = 1 ∧
    Memory.ramp.moved 1 0 2 2 = 1 ∧ UlibC.memmove 1 0 2 Memory.ramp 2 = 0 := by decide +kernel

end Xv6Rework
