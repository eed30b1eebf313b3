import Mathlib.Logic.Function.Basic

/-!
# Cells and their owners

A table of pointers to numbered cells, in which 0 is the null pointer, beside a map of the
cells that are in use.  `Owned` says that the two agree on an area of cells: each
pointer is to a cell of the area in use, no two are to the same, and each cell in use
is pointed to.  Taking a free cell keeps it.
-/

universe u

namespace Xv6Rework

open Function

variable {K : Type u}

/-- The pointers `p` own the cells of the area that are in use. -/
structure Owned (area : Nat → Prop) (used : Nat → Bool) (p : K → Nat) : Prop where
  pos : ∀ b, area b → b ≠ 0
  mem : ∀ k, p k ≠ 0 → area (p k) ∧ used (p k) = true
  inj : ∀ k k', p k ≠ 0 → p k = p k' → k = k'
  onto : ∀ b, area b → used b = true → ∃ k, p k = b

namespace Owned

variable {area : Nat → Prop} {used used' : Nat → Bool} {p : K → Nat} {k k' : K} {b : Nat}

/-- Only the use of cells of the area counts. -/
theorem congr (h : Owned area used p) (hused : ∀ b, area b → used' b = used b) :
    Owned area used' p := by
  refine ⟨h.pos, fun k hk => ?_, h.inj, fun b hb hu => h.onto b hb (by rwa [← hused b hb])⟩
  obtain ⟨harea, hu⟩ := h.mem k hk
  exact ⟨harea, by rwa [hused _ harea]⟩

/-- A cell that is not in use is not pointed to. -/
theorem ne_of_free (h : Owned area used p) (hb : used b = false) (hk : p k ≠ 0) : p k ≠ b := by
  rintro rfl
  rw [(h.mem k hk).2] at hb
  cases hb

variable [DecidableEq K]

/-- A null pointer is set to a free cell, which is in use from then on. -/
theorem alloc (h : Owned area used p) (hk : p k = 0) (hb : area b) (hfree : used b = false) :
    Owned area (update used b true) (update p k b) := by
  refine ⟨h.pos, fun k' => ?_, fun k1 k2 => ?_, fun b' hb' hu => ?_⟩
  · by_cases hk' : k' = k
    · subst hk'
      rw [update_self]
      exact fun _ => ⟨hb, update_self ..⟩
    · rw [update_of_ne hk']
      intro hp
      obtain ⟨harea, hu⟩ := h.mem k' hp
      exact ⟨harea, by rwa [update_of_ne (h.ne_of_free hfree hp)]⟩
  · by_cases h1 : k1 = k <;> by_cases h2 : k2 = k
    · exact fun _ _ => h1.trans h2.symm
    · subst h1
      rw [update_self, update_of_ne h2]
      intro hp heq
      exact absurd heq.symm (h.ne_of_free hfree (heq ▸ hp))
    · subst h2
      rw [update_self, update_of_ne h1]
      intro hp heq
      exact absurd heq (h.ne_of_free hfree hp)
    · rw [update_of_ne h1, update_of_ne h2]
      exact h.inj k1 k2
  · by_cases heq : b' = b
    · exact ⟨k, heq ▸ update_self ..⟩
    · rw [update_of_ne heq] at hu
      obtain ⟨k', rfl⟩ := h.onto b' hb' hu
      refine ⟨k', update_of_ne ?_ ..⟩
      rintro rfl
      exact h.pos _ hb' hk

end Owned

end Xv6Rework
