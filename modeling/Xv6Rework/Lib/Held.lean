import Mathlib.Algebra.BigOperators.Group.Finset.Basic
import Mathlib.Algebra.Order.BigOperators.Group.Multiset

/-!
# What a table holds

A table of optional cells, and the multiset `held s u` of the cells in its places
`s`.  A conservation law is stated by adding such multisets: every cell is in one
place exactly if the sum is a given set.  The lemmas say how `held` changes when
one place is filled or emptied.
-/

universe u v w

namespace Xv6Rework

variable {ι : Type u} {α : Type v} {s : Finset ι} {i : ι} {u w : ι → Option α} {a : α}

/-- The cells in the places `s` of a table. -/
@[irreducible] def held (s : Finset ι) (u : ι → Option α) : Multiset α :=
  ∑ i ∈ s, (u i).elim 0 ({·})

theorem mem_held : a ∈ held s u ↔ ∃ i ∈ s, u i = some a := by
  simp only [held, Multiset.mem_sum]
  refine exists_congr fun i => and_congr_right fun _ => ?_
  cases h : u i with
  | none => simp
  | some b => simp [eq_comm]

theorem held_congr (h : ∀ i ∈ s, u i = w i) : held s u = held s w := by
  rw [held, held]
  exact Finset.sum_congr rfl fun i hi => by rw [h i hi]

theorem held_eq_zero (h : ∀ i ∈ s, u i = none) : held s u = 0 := by
  rw [held]
  exact Finset.sum_eq_zero fun i hi => by rw [h i hi]; rfl

theorem map_held {β : Type w} (f : α → β) :
    (held s u).map f = held s fun i => (u i).map f := by
  classical
  induction s using Finset.induction_on with
  | empty => simp [held]
  | insert i s hi ih =>
    rw [held, held] at ih ⊢
    rw [Finset.sum_insert hi, Finset.sum_insert hi, Multiset.map_add, ih]
    congr 1
    cases u i <;> simp

/-- A table of which each place is empty or holds its own name. -/
theorem count_held_self [DecidableEq ι] {u : ι → Option ι} (hu : ∀ i, u i = none ∨ u i = some i)
    (i : ι) : (held s u).count i = if i ∈ s ∧ u i ≠ none then 1 else 0 := by
  have hz : ∀ j, j ≠ i → ((u j).elim 0 ({·}) : Multiset ι).count i = 0 := by
    intro j hj
    rcases hu j with h | h
    · simp [h]
    · simp [h, Ne.symm hj]
  rw [held, Multiset.count_sum']
  by_cases hi : i ∈ s
  · rw [Finset.sum_eq_single_of_mem i hi fun j _ hj => hz j hj]
    rcases hu i with h | h <;> simp [hi, h]
  · rw [Finset.sum_eq_zero fun j hj => hz j fun e => hi (e ▸ hj), if_neg fun h => hi h.1]

variable [DecidableEq ι]

/-- Emptying a place takes its cell out. -/
theorem held_take (hi : i ∈ s) (h : u i = some a) :
    held s u = a ::ₘ held s (Function.update u i none) := by
  have hrest : ∑ j ∈ s.erase i, (u j).elim 0 ({·}) =
      ∑ j ∈ s.erase i, (Function.update u i none j).elim (0 : Multiset α) ({·}) :=
    Finset.sum_congr rfl fun j hj => by rw [Function.update_of_ne (Finset.ne_of_mem_erase hj)]
  rw [held, held, ← Finset.add_sum_erase _ _ hi, ← Finset.add_sum_erase _ _ hi, hrest, h]
  simp

/-- Filling an empty place puts its cell in. -/
theorem held_put (hi : i ∈ s) (h : u i = none) :
    held s (Function.update u i (some a)) = a ::ₘ held s u := by
  rw [held_take hi (Function.update_self i (some a) u), Function.update_idem]
  congr
  rw [← h, Function.update_eq_self]

/-- In a table without repetitions, a cell is in one place. -/
theorem held_inj {j : ι} (hnd : (held s u).Nodup) (hi : i ∈ s) (hj : j ∈ s)
    (h : u i = some a) (h' : u j = some a) : i = j := by
  by_contra hne
  rw [held_take hi h, Multiset.nodup_cons] at hnd
  exact hnd.1 (mem_held.mpr ⟨j, hj, by rw [Function.update_of_ne (Ne.symm hne)]; exact h'⟩)

end Xv6Rework
