import Xv6Rework.Lib.DLinked

/-!
# Circular lists with a head cell

A circular doubly linked list whose cells are those of `α` and one extra cell,
the head.  A link to `some a` is a link to the cell `a`, and a link to `none` a
link to the head; so the cells other than the head are doubly linked in the sense
of `DLinked`, with `none` for the null link.

`Links.Ring l` says that the links form one circle: the head, then the cells of
`l` in order, then the head again.  Removing a cell and inserting one after the
head are given by their pointer assignments, and `Ring.remove` and
`Ring.insertHead` say what they do to the list.
-/

universe u

variable {α : Type u}

theorem DLinked.reverse {next prev : α → Option α} {l : List α} (h : DLinked next prev l) :
    DLinked prev next l.reverse where
  nodup := List.nodup_reverse.2 h.nodup
  next_eq l1 a l2 e := by
    rw [h.prev_eq l2.reverse a l1.reverse (by rw [← List.reverse_reverse l, e]; simp)]
    simp
  prev_eq l1 a l2 e := by
    rw [h.next_eq l2.reverse a l1.reverse (by rw [← List.reverse_reverse l, e]; simp)]
    simp

/-- The two link fields of the cells and of the head. -/
structure Links (α : Type u) where
  next : Option α → Option α
  prev : Option α → Option α

namespace Links

open Function

/-- The head and the cells of `l`, in a circle. -/
structure Ring (k : Links α) (l : List α) : Prop where
  linked : DLinked (fun a => k.next (some a)) (fun a => k.prev (some a)) l
  next_head : k.next none = l.head?
  prev_head : k.prev none = l.getLast?

/-- The head linked to itself. -/
def empty : Links α := ⟨fun _ => none, fun _ => none⟩

theorem ring_empty : Ring (α := α) empty [] := ⟨.nil, rfl, rfl⟩

/-- The cells met on the way from the head to the head, by `next`. -/
def forward (k : Links α) (fuel : Nat) : List α :=
  followLinks (fun a => k.next (some a)) fuel (k.next none)

/-- The cells met on the way from the head to the head, by `prev`. -/
def backward (k : Links α) (fuel : Nat) : List α :=
  followLinks (fun a => k.prev (some a)) fuel (k.prev none)

variable {k : Links α} {l : List α}

theorem Ring.forward_eq (h : k.Ring l) {fuel : Nat} (hf : l.length ≤ fuel) :
    k.forward fuel = l := by
  rw [forward, h.next_head]
  exact h.linked.followLinks_eq hf

theorem Ring.backward_eq (h : k.Ring l) {fuel : Nat} (hf : l.length ≤ fuel) :
    k.backward fuel = l.reverse := by
  rw [backward, h.prev_head, ← List.head?_reverse]
  exact h.linked.reverse.followLinks_eq (by simpa using hf)

variable [DecidableEq α]

/-- Unlink a cell. -/
def remove (k : Links α) (a : α) : Links α :=
  let k := { k with prev := update k.prev (k.next (some a)) (k.prev (some a)) }
  { k with next := update k.next (k.prev (some a)) (k.next (some a)) }

/-- Link a cell in after the head. -/
def insertHead (k : Links α) (a : α) : Links α :=
  let k := { k with next := update k.next (some a) (k.next none) }
  let k := { k with prev := update k.prev (some a) none }
  let k := { k with prev := update k.prev (k.next none) (some a) }
  { k with next := update k.next none (some a) }

theorem Ring.remove {l1 l2 : List α} {a : α} (h : k.Ring (l1 ++ a :: l2)) :
    (k.remove a).Ring (l1 ++ l2) := by
  have hnext : k.next (some a) = l2.head? := h.linked.next_eq l1 a l2 rfl
  have hprev : k.prev (some a) = l1.getLast? := h.linked.prev_eq l1 a l2 rfl
  have hnd := h.linked.nodup
  have ha : l2.head? ≠ some a := fun e => by
    have := List.mem_of_head? e
    simp [List.nodup_append, this] at hnd
  have hremove : k.remove a = ⟨update k.next l1.getLast? l2.head?,
      update k.prev l2.head? l1.getLast?⟩ := by
    simp only [Links.remove, hnext, hprev]
    rw [update_of_ne ha.symm, hprev]
  rw [hremove]
  constructor
  case linked =>
    refine h.linked.splice_out (fun b hb => ?_) (fun b hb => ?_) (fun b _ hb => ?_) fun b _ hb => ?_
    · simp [← hb]
    · simp [← hb]
    · exact update_of_ne (Ne.symm hb) ..
    · exact update_of_ne (Ne.symm hb) ..
  case next_head =>
    cases l1 with
    | nil => simp
    | cons b l1 =>
      have hne : (b :: l1).getLast? ≠ none := by simp
      exact (update_of_ne hne.symm l2.head? k.next).trans h.next_head
  case prev_head =>
    cases l2 with
    | nil => simp
    | cons b l2 =>
      have := h.prev_head
      simp_all

theorem Ring.insertHead {a : α} (h : k.Ring l) (ha : a ∉ l) : (k.insertHead a).Ring (a :: l) := by
  have hhead : l.head? ≠ some a := fun e => ha (List.mem_of_head? e)
  have hinsert : k.insertHead a = ⟨update (update k.next (some a) l.head?) none
      (some a), update (update k.prev (some a) none) l.head? (some a)⟩ := by
    simp [Links.insertHead, h.next_head]
  rw [hinsert]
  constructor
  case linked =>
    have hlinked : DLinked (fun a => k.next (some a)) (fun a => k.prev (some a)) ([] ++ l) :=
      h.linked
    refine hlinked.splice_in ha ?_ ?_ (by simp) (fun b hb => ?_) (fun b hb _ => ?_)
      fun b hb hne => ?_
    · simp
    · simp [update_of_ne hhead.symm]
    · simp [← hb]
    · have : b ≠ a := by rintro rfl; exact ha hb
      simp [this]
    · have : b ≠ a := by rintro rfl; exact ha hb
      simp only
      rw [update_of_ne (Ne.symm hne), update_of_ne (by simpa using this)]
  case next_head => simp
  case prev_head =>
    cases l with
    | nil => simp
    | cons b l => simpa using h.prev_head

end Links
