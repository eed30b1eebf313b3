import Mathlib.Data.List.GetD

/-!
# A memory of bytes

A memory without bounds is a function from addresses to bytes.  `Memory.put` stores a run of
bytes and `Memory.Has` says that a run of bytes is at an address.  What is at one address is
read back, and what is elsewhere stays.
-/

namespace Xv6Rework

/-- A memory: the byte at each address. -/
abbrev Memory := Nat → UInt8

namespace Memory

variable {mem : Memory} {a b x : Nat} {l l' : List UInt8}

/-- The memory with the bytes `l` at the address `a`. -/
def put (mem : Memory) (a : Nat) (l : List UInt8) : Memory := fun x =>
  if a ≤ x ∧ x < a + l.length then l.getD (x - a) 0 else mem x

/-- The bytes `l` are at the address `a`. -/
def Has (mem : Memory) (a : Nat) (l : List UInt8) : Prop :=
  ∀ i (h : i < l.length), mem (a + i) = l[i]

@[simp] theorem put_nil : put mem a [] = mem := by
  funext x
  exact if_neg (by simp)

theorem put_outside (h : x < a ∨ a + l.length ≤ x) : put mem a l x = mem x := if_neg (by omega)

theorem put_inside {i : Nat} (h : i < l.length) : put mem a l (a + i) = l[i] := by
  rw [put, if_pos (by omega), Nat.add_sub_cancel_left, List.getD_eq_getElem _ _ h]

/-- Two runs, one behind the other. -/
theorem put_append : put mem a (l ++ l') = put (put mem a l) (a + l.length) l' := by
  funext x
  simp only [put, List.length_append]
  by_cases hx : a + l.length ≤ x ∧ x < a + l.length + l'.length
  · rw [if_pos hx, if_pos (by omega), List.getD_append_right _ _ _ _ (by omega), Nat.sub_sub]
  · rw [if_neg hx]
    by_cases hx' : a ≤ x ∧ x < a + l.length
    · rw [if_pos hx', if_pos (by omega), List.getD_append _ _ _ _ (by omega)]
    · rw [if_neg hx', if_neg (by omega)]

theorem has_put : (put mem a l).Has a l := fun _ h => put_inside h

/-- A run that is stored elsewhere. -/
theorem Has.put (h : mem.Has a l) (hd : a + l.length ≤ b ∨ b + l'.length ≤ a) :
    (put mem b l').Has a l :=
  fun i hi => (put_outside (by omega)).trans (h i hi)

theorem has_append : mem.Has a (l ++ l') ↔ mem.Has a l ∧ mem.Has (a + l.length) l' := by
  constructor
  · refine fun h => ⟨fun i hi => ?_, fun i hi => ?_⟩
    · rw [h i (by rw [List.length_append]; omega), List.getElem_append_left hi]
    · rw [Nat.add_assoc, h (l.length + i) (by rw [List.length_append]; omega),
        List.getElem_append_right (Nat.le_add_right _ _)]
      simp only [Nat.add_sub_cancel_left]
  · rintro ⟨h, h'⟩ i hi
    by_cases hl : i < l.length
    · rw [h i hl, List.getElem_append_left hl]
    · rw [List.length_append] at hi
      rw [List.getElem_append_right (by omega), ← h' (i - l.length) (by omega)]
      congr 1
      omega

end Memory

end Xv6Rework
