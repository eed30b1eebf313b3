import Mathlib.Data.List.Nodup

/-!
# Linked lists in a heap

A heap of cells with a link field is a function `next : α → Option α`.
`SLinked next l` says that the cells of `l` are linked in that order, with a
null link at the end.  With a second link field `prev`, `DLinked next prev l`
says that they are doubly linked: each cell's links are its two neighbours in
`l`, and the ends have null links.  The head pointer of such a list is
`l.head?`.

The two rules that carry everything are `DLinked.splice_in`, which inserts a
cell between two halves, and `DLinked.splice_out`, which removes one.  Both are
stated by what the new links are *at the cells concerned*, so that they apply
whatever order the pointer assignments of a program come in.
-/

universe u

variable {α : Type u} {next prev next' prev' : α → Option α}

/-- `l` is linked by `next`, with a null link at its end. -/
structure SLinked (next : α → Option α) (l : List α) : Prop where
  nodup : l.Nodup
  next_eq : ∀ l1 a l2, l = l1 ++ a :: l2 → next a = l2.head?

/-- `l` is doubly linked by `next` and `prev`, with null links at both ends. -/
structure DLinked (next prev : α → Option α) (l : List α) : Prop extends SLinked next l where
  prev_eq : ∀ l1 a l2, l = l1 ++ a :: l2 → prev a = l1.getLast?

/-- Splitting a list at a cell other than where it is known to be split. -/
theorem append_cons_eq_append {l1 l2 m1 m2 : List α} {a n : α}
    (h : l1 ++ n :: l2 = m1 ++ a :: m2) :
    (a = n ∧ m1 = l1 ∧ m2 = l2) ∨
    (∃ t, m1 = l1 ++ n :: t ∧ l2 = t ++ a :: m2) ∨
    (∃ t, l1 = m1 ++ a :: t ∧ m2 = t ++ n :: l2) := by
  rcases List.append_eq_append_iff.mp h with ⟨t, rfl, ht⟩ | ⟨t, rfl, ht⟩
  · cases t with
    | nil =>
      simp only [List.nil_append, List.cons.injEq] at ht
      exact .inl ⟨ht.1.symm, by simp, ht.2.symm⟩
    | cons b t =>
      simp only [List.cons_append, List.cons.injEq] at ht
      exact .inr (.inl ⟨t, by rw [← ht.1], ht.2⟩)
  · cases t with
    | nil =>
      simp only [List.nil_append, List.cons.injEq] at ht
      exact .inl ⟨ht.1, by simp, ht.2⟩
    | cons b t =>
      simp only [List.cons_append, List.cons.injEq] at ht
      exact .inr (.inr ⟨t, by rw [← ht.1], ht.2⟩)

/-! ## Singly linked lists -/

namespace SLinked

theorem nil : SLinked next [] where
  nodup := List.nodup_nil
  next_eq l1 a l2 h := by simp at h

theorem congr {l : List α} (h : SLinked next l) (hn : ∀ a ∈ l, next' a = next a) :
    SLinked next' l where
  nodup := h.nodup
  next_eq l1 a l2 e := by rw [hn a (by simp [e])]; exact h.next_eq l1 a l2 e

theorem next_head {a : α} {l : List α} (h : SLinked next (a :: l)) : next a = l.head? :=
  h.next_eq [] a l rfl

theorem tail {a : α} {l : List α} (h : SLinked next (a :: l)) : SLinked next l where
  nodup := (List.nodup_cons.mp h.nodup).2
  next_eq l1 b l2 e := h.next_eq (a :: l1) b l2 (by simp [e])

/-- Insert `n` between `l1` and `l2`: the new cell gets its successor, its
predecessor gets the new cell, and the other links stay. -/
theorem splice_in {l1 l2 : List α} {n : α} (h : SLinked next (l1 ++ l2)) (hn : n ∉ l1 ++ l2)
    (hnn : next' n = l2.head?) (hnl : ∀ a, l1.getLast? = some a → next' a = some n)
    (hno : ∀ a ∈ l1 ++ l2, l1.getLast? ≠ some a → next' a = next a) :
    SLinked next' (l1 ++ n :: l2) := by
  have hnd : (l1 ++ n :: l2).Nodup := by
    rw [List.nodup_middle]
    exact List.nodup_cons.mpr ⟨hn, h.nodup⟩
  refine ⟨hnd, ?_⟩
  intro m1 a m2 e
  rcases append_cons_eq_append e with ⟨rfl, rfl, rfl⟩ | ⟨t, rfl, rfl⟩ | ⟨t, rfl, rfl⟩
  · exact hnn
  · have hne : l1.getLast? ≠ some a := fun hc => by
      have ha : a ∈ l1 := List.mem_of_getLast? hc
      exact (List.disjoint_of_nodup_append h.nodup) ha (by simp)
    rw [hno a (by simp) hne]
    exact h.next_eq (l1 ++ t) a m2 (by simp)
  · cases t with
    | nil => rw [hnl a (by simp)]; rfl
    | cons b t =>
      have hnd' := (List.nodup_append.mp h.nodup).1
      have hne : (m1 ++ a :: b :: t).getLast? ≠ some a := fun hc => by
        have hmem : a ∈ b :: t := by
          rw [List.getLast?_append_cons, List.getLast?_cons_cons] at hc
          exact List.mem_of_getLast? hc
        exact (List.nodup_cons.mp (List.nodup_append.mp hnd').2.1).1 hmem
      rw [hno a (by simp) hne]
      exact h.next_eq m1 a (b :: t ++ l2) (by simp)

end SLinked

/-! ## Doubly linked lists -/

namespace DLinked

/-- The empty list is linked by any links. -/
theorem nil : DLinked next prev [] where
  nodup := List.nodup_nil
  next_eq l1 a l2 h := by simp at h
  prev_eq l1 a l2 h := by simp at h

/-- Only the links of the cells of the list matter. -/
theorem congr {l : List α} (h : DLinked next prev l) (hn : ∀ a ∈ l, next' a = next a)
    (hp : ∀ a ∈ l, prev' a = prev a) : DLinked next' prev' l where
  nodup := h.nodup
  next_eq l1 a l2 e := by rw [hn a (by simp [e])]; exact h.next_eq l1 a l2 e
  prev_eq l1 a l2 e := by rw [hp a (by simp [e])]; exact h.prev_eq l1 a l2 e

/-- Insert `n` between `l1` and `l2`: the new cell gets its two neighbours, the
neighbours get the new cell, and the other links stay. -/
theorem splice_in {l1 l2 : List α} {n : α} (h : DLinked next prev (l1 ++ l2))
    (hn : n ∉ l1 ++ l2)
    (hnn : next' n = l2.head?) (hpn : prev' n = l1.getLast?)
    (hnl : ∀ a, l1.getLast? = some a → next' a = some n)
    (hph : ∀ a, l2.head? = some a → prev' a = some n)
    (hno : ∀ a ∈ l1 ++ l2, l1.getLast? ≠ some a → next' a = next a)
    (hpo : ∀ a ∈ l1 ++ l2, l2.head? ≠ some a → prev' a = prev a) :
    DLinked next' prev' (l1 ++ n :: l2) := by
  refine ⟨h.toSLinked.splice_in hn hnn hnl hno, ?_⟩
  intro m1 a m2 e
  rcases append_cons_eq_append e with ⟨rfl, rfl, rfl⟩ | ⟨t, rfl, rfl⟩ | ⟨t, rfl, rfl⟩
  · exact hpn
  · cases t with
    | nil => rw [hph a (by simp)]; simp
    | cons b t =>
      have hne : (b :: t ++ a :: m2).head? ≠ some a := fun hc => by
        simp only [List.cons_append, List.head?_cons, Option.some.injEq] at hc
        have hnd' := (List.nodup_append.mp h.nodup).2.1
        exact (List.nodup_cons.mp hnd').1 (by simp [hc])
      rw [hpo a (by simp) hne, h.prev_eq (l1 ++ b :: t) a m2 (by simp)]
      simp [List.getLast?_cons_cons]
  · have hne : l2.head? ≠ some a := fun hc => by
      have ha : a ∈ l2 := List.mem_of_head? hc
      exact (List.disjoint_of_nodup_append h.nodup) (by simp) ha
    rw [hpo a (by simp) hne]
    exact h.prev_eq m1 a (t ++ l2) (by simp)

/-- Remove `n` from between `l1` and `l2`: its neighbours are linked to each
other and the other links stay. -/
theorem splice_out {l1 l2 : List α} {n : α} (h : DLinked next prev (l1 ++ n :: l2))
    (hnl : ∀ a, l1.getLast? = some a → next' a = l2.head?)
    (hph : ∀ a, l2.head? = some a → prev' a = l1.getLast?)
    (hno : ∀ a ∈ l1 ++ l2, l1.getLast? ≠ some a → next' a = next a)
    (hpo : ∀ a ∈ l1 ++ l2, l2.head? ≠ some a → prev' a = prev a) :
    DLinked next' prev' (l1 ++ l2) := by
  have hnd : (l1 ++ l2).Nodup := (List.nodup_cons.mp (List.nodup_middle.mp h.nodup)).2
  refine ⟨⟨hnd, ?_⟩, ?_⟩
  · intro m1 a m2 e
    have hmem : a ∈ l1 ++ l2 := by simp [e]
    rcases List.append_eq_append_iff.mp e with ⟨t, rfl, ht⟩ | ⟨t, rfl, ht⟩
    · have hne : l1.getLast? ≠ some a := fun hc =>
        (List.disjoint_of_nodup_append hnd) (List.mem_of_getLast? hc) (by simp [ht])
      rw [hno a hmem hne]
      exact h.next_eq (l1 ++ n :: t) a m2 (by simp [ht])
    · cases t with
      | nil =>
        simp only [List.nil_append] at ht
        have hne : (m1 ++ []).getLast? ≠ some a := fun hc =>
          (List.disjoint_of_nodup_append hnd) (List.mem_of_getLast? hc) (by simp [← ht])
        rw [hno a hmem hne]
        exact h.next_eq (m1 ++ [n]) a m2 (by simp [← ht])
      | cons b t =>
        simp only [List.cons_append, List.cons.injEq] at ht
        obtain ⟨rfl, rfl⟩ := ht
        cases t with
        | nil => rw [hnl a (by simp)]; simp
        | cons c t =>
          have hne : (m1 ++ a :: c :: t).getLast? ≠ some a := fun hc => by
            have hm : a ∈ c :: t := by
              rw [List.getLast?_append_cons, List.getLast?_cons_cons] at hc
              exact List.mem_of_getLast? hc
            exact (List.nodup_cons.mp
              (List.nodup_append.mp (List.nodup_append.mp hnd).1).2.1).1 hm
          rw [hno a hmem hne]
          exact h.next_eq m1 a (c :: t ++ n :: l2) (by simp)
  · intro m1 a m2 e
    have hmem : a ∈ l1 ++ l2 := by simp [e]
    rcases List.append_eq_append_iff.mp e with ⟨t, rfl, ht⟩ | ⟨t, rfl, ht⟩
    · cases t with
      | nil =>
        simp only [List.nil_append] at ht
        rw [hph a (by simp [ht])]
        simp
      | cons b t =>
        have hne : l2.head? ≠ some a := fun hc => by
          rw [ht] at hc
          simp only [List.cons_append, List.head?_cons, Option.some.injEq] at hc
          have hnd' := (List.nodup_append.mp hnd).2.1
          rw [ht, hc] at hnd'
          exact (List.nodup_cons.mp hnd').1 (by simp)
        rw [hpo a hmem hne, h.prev_eq (l1 ++ n :: b :: t) a m2 (by simp [ht])]
        simp [List.getLast?_cons_cons]
    · cases t with
      | nil =>
        simp only [List.nil_append] at ht
        rw [hph a (by simp [← ht])]
        simp
      | cons b t =>
        simp only [List.cons_append, List.cons.injEq] at ht
        obtain ⟨rfl, rfl⟩ := ht
        have hne : l2.head? ≠ some a := fun hc =>
          (List.disjoint_of_nodup_append hnd) (by simp) (List.mem_of_head? hc)
        rw [hpo a hmem hne]
        exact h.prev_eq m1 a (t ++ n :: l2) (by simp)

end DLinked

/-! ## Checking links -/

theorem SLinked.cons_iff {a : α} {l : List α} :
    SLinked next (a :: l) ↔ a ∉ l ∧ next a = l.head? ∧ SLinked next l := by
  constructor
  · intro h
    exact ⟨(List.nodup_cons.mp h.nodup).1, h.next_head, h.tail⟩
  · rintro ⟨ha, hnext, h⟩
    refine ⟨List.nodup_cons.mpr ⟨ha, h.nodup⟩, fun l1 b l2 e => ?_⟩
    cases l1 with
    | nil =>
      obtain ⟨rfl, rfl⟩ := List.cons.inj e
      exact hnext
    | cons c l1 => exact h.next_eq l1 b l2 (List.cons.inj e).2

/-- A list is doubly linked when it is linked in both directions. -/
theorem dLinked_iff {l : List α} : DLinked next prev l ↔ SLinked next l ∧
    SLinked prev l.reverse := by
  constructor
  · intro h
    refine ⟨h.toSLinked, List.nodup_reverse.mpr h.nodup, fun l1 a l2 e => ?_⟩
    have hprev := h.prev_eq l2.reverse a l1.reverse (by rw [← List.reverse_reverse l, e]; simp)
    rwa [List.getLast?_reverse] at hprev
  · rintro ⟨hnext, hprev⟩
    refine ⟨hnext, fun l1 a l2 e => ?_⟩
    have hprev := hprev.next_eq l2.reverse a l1.reverse (by rw [e]; simp)
    rwa [List.head?_reverse] at hprev

instance SLinked.decidable [DecidableEq α] (next : α → Option α) : ∀ l, Decidable (SLinked next l)
  | [] => isTrue SLinked.nil
  | a :: l =>
    have := SLinked.decidable next l
    decidable_of_iff (a ∉ l ∧ next a = l.head? ∧ SLinked next l) SLinked.cons_iff.symm

instance DLinked.decidable [DecidableEq α] (next prev : α → Option α) (l : List α) :
    Decidable (DLinked next prev l) :=
  decidable_of_iff (SLinked next l ∧ SLinked prev l.reverse) dLinked_iff.symm

/-! ## Following the links -/

/-- The cells met by following `next`, at most `fuel` of them. -/
def followLinks (next : α → Option α) : Nat → Option α → List α
  | 0, _ => []
  | _, none => []
  | fuel + 1, some a => a :: followLinks next fuel (next a)

/-- Following the links of a linked list from its head lists it. -/
theorem SLinked.followLinks_eq {l : List α} (h : SLinked next l) {fuel : Nat}
    (hf : l.length ≤ fuel) : followLinks next fuel l.head? = l := by
  suffices ∀ (l2 l1 : List α) (fuel : Nat), l = l1 ++ l2 → l2.length ≤ fuel →
      followLinks next fuel l2.head? = l2 from this l [] fuel rfl hf
  intro l2
  induction l2 with
  | nil => intro l1 fuel _ _; cases fuel <;> rfl
  | cons a l2 ih =>
    intro l1 fuel e hf
    cases fuel with
    | zero => simp at hf
    | succ fuel =>
      simp only [List.head?_cons, followLinks]
      rw [h.next_eq l1 a l2 e, ih (l1 ++ [a]) fuel (by simp [e]) (by simpa using hf)]
