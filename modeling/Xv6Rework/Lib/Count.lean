import Mathlib.Data.Fintype.BigOperators

/-!
# Counting the entries of a finite table

`count P f` is the number of entries of a finite table `f` that satisfy `P`.
Reference counts are stated with it; `count_update` says how it changes when one
entry does.
-/

universe u v

variable {ι : Type u} {β : Type v} [Fintype ι] {P : β → Prop} [DecidablePred P]

/-- The number of entries that satisfy `P`. -/
def count (P : β → Prop) [DecidablePred P] (f : ι → β) : Nat := ∑ i, if P (f i) then 1 else 0

theorem count_update [DecidableEq ι] (f : ι → β) (i : ι) (x : β) :
    count P (Function.update f i x) + (if P (f i) then 1 else 0) =
      count P f + if P x then 1 else 0 := by
  unfold count
  rw [← Finset.add_sum_erase _ _ (Finset.mem_univ i), ← Finset.add_sum_erase Finset.univ
    (fun j => if P (f j) then 1 else 0) (Finset.mem_univ i), Function.update_self]
  have : ∑ j ∈ Finset.univ.erase i, (if P (Function.update f i x j) then 1 else 0) =
      ∑ j ∈ Finset.univ.erase i, if P (f j) then 1 else 0 := by
    refine Finset.sum_congr rfl fun j hj => ?_
    rw [Function.update_of_ne (Finset.ne_of_mem_erase hj)]
  omega

/-- An entry that changes from one side of `P` to the same side. -/
theorem count_update_of_iff [DecidableEq ι] {f : ι → β} {i : ι} {x : β} (h : P x ↔ P (f i)) :
    count P (Function.update f i x) = count P f := by
  have := count_update (P := P) f i x
  simp only [h] at this
  omega

theorem count_update_of_pos [DecidableEq ι] {f : ι → β} {i : ι} {x : β} (h : ¬P (f i)) (hx : P x) :
    count P (Function.update f i x) = count P f + 1 := by
  have := count_update (P := P) f i x
  simpa [h, hx] using this

theorem count_update_of_neg [DecidableEq ι] {f : ι → β} {i : ι} {x : β} (h : P (f i)) (hx : ¬P x) :
    count P (Function.update f i x) + 1 = count P f := by
  have := count_update (P := P) f i x
  simpa [h, hx] using this

theorem count_eq_zero {f : ι → β} : count P f = 0 ↔ ∀ i, ¬P (f i) := by
  simp only [count, Finset.sum_eq_zero_iff, Finset.mem_univ, true_implies,
    ite_eq_right_iff, one_ne_zero, imp_false]

theorem count_pos {f : ι → β} : 0 < count P f ↔ ∃ i, P (f i) := by
  rw [Nat.pos_iff_ne_zero, Ne, count_eq_zero]
  simp

/-! ## Sums of a table -/

/-- The sum of a table of which one entry has changed. -/
theorem sum_change [DecidableEq ι] {f g : ι → Int} (i : ι) (h : ∀ j, j ≠ i → f j = g j) :
    ∑ j, f j + g i = ∑ j, g j + f i := by
  rw [← Finset.add_sum_erase _ _ (Finset.mem_univ i), ← Finset.add_sum_erase Finset.univ g
    (Finset.mem_univ i)]
  have hrest : ∑ j ∈ Finset.univ.erase i, f j = ∑ j ∈ Finset.univ.erase i, g j :=
    Finset.sum_congr rfl fun j hj => h j (Finset.ne_of_mem_erase hj)
  omega

/-- The entries of a table of options that are not empty, counted by what they hold. -/
theorem sum_count_some [Fintype β] [DecidableEq β] (f : ι → Option β) :
    ∑ b, count (· = some b) f = count (· ≠ none) f := by
  unfold count
  rw [Finset.sum_comm]
  refine Finset.sum_congr rfl fun i _ => ?_
  cases hi : f i with
  | none => simp
  | some b => simp
