import Mathlib.Data.List.Basic
import Mathlib.Algebra.GroupWithZero.Nat

/-!
# Circular buffers with wrapping counters

An array of `N` cells that is used in a circle: two 32-bit counters run ahead without
ever being reset, and the cell of a counter is its remainder by `N`.  The counters wrap
around at `2 ^ 32`, which does no harm as long as `N` divides that.

`window data r n` is the list of the `n` cells from the counter `r` on.  The distance of
two counters is their difference in wrapping arithmetic; the lemmas on `gap` say how it
changes when one of the two moves by one.
-/

universe u

namespace Circular

variable {α : Type u} {N m n i j : Nat} {data : Nat → α} {r w : UInt32} {c : α}

/-- The cell of a counter. -/
def slot (N : Nat) (k : UInt32) : Nat := k.toNat % N

/-- The counter that is `n` ahead. -/
def ahead (r : UInt32) (n : Nat) : UInt32 := r + UInt32.ofNat n

/-- How far `w` is ahead of `r`. -/
def gap (r w : UInt32) : Nat := (w - r).toNat

/-- The cells from a counter on. -/
def window (N : Nat) (data : Nat → α) (r : UInt32) (n : Nat) : List α :=
  (List.range n).map fun j => data (slot N (ahead r j))

/-! ## Counters -/

theorem toNat_ahead : (ahead r n).toNat = (r.toNat + n) % 2 ^ 32 := by
  simp [ahead]

@[simp] theorem ahead_zero : ahead r 0 = r := by
  simp [ahead]

theorem ahead_ahead : ahead (ahead r m) n = ahead r (m + n) := by
  apply UInt32.toNat_inj.1
  simp only [toNat_ahead]
  omega

theorem ahead_one : ahead r 1 = r + 1 := rfl

@[simp] theorem ahead_gap : ahead r (gap r w) = w := by
  apply UInt32.toNat_inj.1
  have hw := w.toNat_lt
  have hr := r.toNat_lt
  rw [toNat_ahead, gap, UInt32.toNat_sub]
  omega

@[simp] theorem gap_self : gap r r = 0 := by
  simp [gap]

theorem gap_ahead (hn : n < 2 ^ 32) : gap r (ahead r n) = n := by
  have hr := r.toNat_lt
  rw [gap, UInt32.toNat_sub, toNat_ahead]
  omega

theorem gap_eq_zero : gap r w = 0 ↔ w = r := by
  refine ⟨fun h => ?_, fun h => by rw [h, gap_self]⟩
  rw [← ahead_gap (r := r) (w := w), h, ahead_zero]

/-- A counter is `n` ahead exactly if the distance is `n`. -/
theorem eq_ahead_iff (hn : n < 2 ^ 32) : w = ahead r n ↔ gap r w = n := by
  refine ⟨fun h => by rw [h, gap_ahead hn], fun h => ?_⟩
  rw [← h, ahead_gap]

theorem gap_succ (h : gap r w + 1 < 2 ^ 32) : gap r (w + 1) = gap r w + 1 := by
  have hw : w + 1 = ahead r (gap r w + 1) := by
    rw [← ahead_ahead, ahead_gap, ahead_one]
  rw [hw, gap_ahead h]

theorem gap_lt : gap r w < 2 ^ 32 := (w - r).toNat_lt

theorem gap_succ_left (h : w ≠ r) : gap (r + 1) w + 1 = gap r w := by
  have hpos : gap r w ≠ 0 := fun e => h (gap_eq_zero.1 e)
  have hlt := gap_lt (r := r) (w := w)
  have hw : w = ahead (r + 1) (gap r w - 1) := by
    rw [← ahead_one, ahead_ahead, Nat.add_sub_cancel' (by omega), ahead_gap]
  rw [(eq_ahead_iff (by omega)).1 hw]
  omega

theorem gap_pred (h : w ≠ r) : gap r (w - 1) + 1 = gap r w := by
  have hpos : gap r w ≠ 0 := fun e => h (gap_eq_zero.1 e)
  have hlt := gap_lt (r := r) (w := w)
  have hw : w - 1 = ahead r (gap r w - 1) := by
    have hsucc : ahead r (gap r w - 1) + 1 = w := by
      rw [← ahead_one, ahead_ahead, Nat.sub_add_cancel (by omega), ahead_gap]
    rw [← hsucc, UInt32.add_sub_cancel, hsucc]
  rw [(eq_ahead_iff (by omega)).1 hw]
  omega

/-- Distances add up as long as they stay within one turn of the counters. -/
theorem gap_add {e : UInt32} (h : gap r w + gap w e < 2 ^ 32) : gap r e = gap r w + gap w e := by
  have he : e = ahead r (gap r w + gap w e) := by
    rw [← ahead_ahead, ahead_gap, ahead_gap]
  rw [(eq_ahead_iff h).1 he]

/-! ## Cells -/

theorem slot_ahead (hN : N ∣ 2 ^ 32) : slot N (ahead r n) = (r.toNat + n) % N := by
  rw [slot, toNat_ahead, Nat.mod_mod_of_dvd _ hN]

/-- The cells of counters less than one turn apart are different. -/
theorem slot_ne (hN : N ∣ 2 ^ 32) (hi : i < j) (hj : j < N) :
    slot N (ahead r i) ≠ slot N (ahead r j) := by
  rw [slot_ahead hN, slot_ahead hN]
  intro h
  have hdvd : N ∣ (r.toNat + j) - (r.toNat + i) :=
    Nat.dvd_of_mod_eq_zero (Nat.sub_mod_eq_zero_of_mod_eq h.symm)
  have := Nat.eq_zero_of_dvd_of_lt hdvd (by omega)
  omega

@[simp] theorem length_window : (window N data r n).length = n := by
  simp [window]

@[simp] theorem window_zero : window N data r 0 = [] := rfl

/-- A window is two windows, one after the other. -/
theorem window_add :
    window N data r (m + n) = window N data r m ++ window N data (ahead r m) n := by
  simp [window, List.range_add, ahead_ahead, Function.comp_def]

theorem window_succ :
    window N data r (n + 1) = window N data r n ++ [data (slot N (ahead r n))] := by
  simp [window, List.range_succ]

/-- Reading takes the first cell off. -/
theorem window_succ_left :
    window N data r (n + 1) = data (slot N r) :: window N data (r + 1) n := by
  rw [Nat.add_comm, window_add, ahead_one]
  simp [window]

/-- A store behind a window leaves it. -/
theorem window_store_of_le (hN : N ∣ 2 ^ 32) (hm : m ≤ n) (hn : n < N) :
    window N (Function.update data (slot N (ahead r n)) c) r m = window N data r m := by
  refine List.map_congr_left fun j hj => ?_
  have hj := List.mem_range.1 hj
  exact Function.update_of_ne (slot_ne hN (by omega) hn) ..

/-- Writing adds a last cell. -/
theorem window_store (hN : N ∣ 2 ^ 32) (hn : n < N) :
    window N (Function.update data (slot N (ahead r n)) c) r (n + 1) =
      window N data r n ++ [c] := by
  rw [window_succ, window_store_of_le hN (Nat.le_refl n) hn, Function.update_self]

end Circular
