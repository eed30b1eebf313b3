import Mathlib.Data.List.Basic

/-!
# Strings in memory

The functions of `user/ulib.c` that login uses.  A piece of memory is a list of bytes, and a
pointer into it is the list from there on; an access beyond its end is undefined, and gives
`none`.

A string is what stands before the first zero.  For each function there is one lemma on what
it does to a string that is there.
-/

namespace Xv6Rework.Ulib

/-- `'\n'`. -/
def newline : UInt8 := 10

/-- `'\r'`. -/
def cr : UInt8 := 13

/-- `*p = c` at index `i`. -/
def store (b : List UInt8) (i : Nat) (c : UInt8) : Option (List UInt8) :=
  if i < b.length then some (b.set i c) else none

/-- `strlen`. -/
def strlen : List UInt8 → Option Nat
  | [] => none
  | c :: s => if c = 0 then some 0 else (strlen s).map (· + 1)

/-- `strcmp`. -/
def strcmp : List UInt8 → List UInt8 → Option Int
  | c :: p, d :: q => if c ≠ 0 ∧ c = d then strcmp p q else some (c.toNat - d.toNat)
  | _, _ => none

/-- `memset`. -/
def memset : List UInt8 → UInt8 → Nat → Option (List UInt8)
  | dst, _, 0 => some dst
  | [], _, _ + 1 => none
  | _ :: dst, c, n + 1 => (memset dst c n).map (c :: ·)

/-- `memmove`, of a source that does not overlap. -/
def memmove : List UInt8 → List UInt8 → Nat → Option (List UInt8)
  | dst, _, 0 => some dst
  | _ :: dst, c :: src, n + 1 => (memmove dst src n).map (c :: ·)
  | _, _, _ + 1 => none

/-- `memmove` to `dst + i`. -/
def memmoveAt (dst : List UInt8) (i : Nat) (src : List UInt8) (n : Nat) : Option (List UInt8) :=
  if i ≤ dst.length then (memmove (dst.drop i) src n).map (dst.take i ++ ·) else none

/-- The loop of `gets`, on the input that is still to be read. -/
def getsLoop (max : Nat) : List UInt8 → Nat → List UInt8 → Option (Nat × List UInt8 × List UInt8)
  | [], i, buf => some (i, buf, [])
  | c :: input, i, buf =>
    if i + 1 < max then do
      let buf ← store buf i c
      if c = newline ∨ c = cr then some (i + 1, buf, input) else getsLoop max input (i + 1) buf
    else some (i, buf, c :: input)

/-- `gets`: the buffer, and the input that is left. -/
def gets (buf : List UInt8) (max : Nat) (input : List UInt8) :
    Option (List UInt8 × List UInt8) := do
  let (i, buf, input) ← getsLoop max input 0 buf
  let buf ← store buf i 0
  return (buf, input)

/-! ## What they do to strings -/

variable {s t r q b src : List UInt8}

theorem strlen_eq (h : 0 ∉ s) : strlen (s ++ 0 :: r) = some s.length := by
  induction s with
  | nil => rfl
  | cons c s ih =>
    rw [List.mem_cons, not_or] at h
    rw [List.cons_append, strlen, if_neg (Ne.symm h.1), ih h.2]
    rfl

/-- `strcmp` returns 0 for equal strings, and for no others. -/
theorem strcmp_eq (hs : 0 ∉ s) (ht : 0 ∉ t) :
    ∃ x, strcmp (s ++ 0 :: r) (t ++ 0 :: q) = some x ∧ (x = 0 ↔ s = t) := by
  induction s generalizing t with
  | nil =>
    cases t with
    | nil => exact ⟨0, rfl, by simp⟩
    | cons d t =>
      rw [List.mem_cons, not_or] at ht
      have hd : d.toNat ≠ 0 := fun h => ht.1 (UInt8.toNat_inj.mp h.symm)
      refine ⟨0 - d.toNat, by simp [strcmp], ?_⟩
      simp only [List.nil_eq, reduceCtorEq, iff_false]
      omega
  | cons c s ih =>
    rw [List.mem_cons, not_or] at hs
    have hc : c.toNat ≠ 0 := fun h => hs.1 (UInt8.toNat_inj.mp h.symm)
    cases t with
    | nil =>
      refine ⟨c.toNat, by simp [strcmp, Ne.symm hs.1], ?_⟩
      simp only [reduceCtorEq, iff_false]
      omega
    | cons d t =>
      rw [List.mem_cons, not_or] at ht
      by_cases hcd : c = d
      · subst hcd
        obtain ⟨x, hx, hx0⟩ := ih hs.2 ht.2
        refine ⟨x, ?_, by simpa using hx0⟩
        rw [List.cons_append, List.cons_append, strcmp, if_pos ⟨Ne.symm hs.1, rfl⟩, hx]
      · refine ⟨c.toNat - d.toNat, by simp [strcmp, hcd], ?_⟩
        have hne : c.toNat ≠ d.toNat := fun h => hcd (UInt8.toNat_inj.mp h)
        simp only [List.cons.injEq, hcd, false_and, iff_false]
        omega

theorem memset_eq {c : UInt8} {n : Nat} (h : n ≤ b.length) :
    memset b c n = some (List.replicate n c ++ b.drop n) := by
  induction n generalizing b with
  | zero => simp [memset]
  | succ n ih =>
    cases b with
    | nil => cases h
    | cons d b =>
      rw [memset, ih (Nat.le_of_succ_le_succ h)]
      rfl

theorem memmove_eq {n : Nat} (hb : n ≤ b.length) (hsrc : n ≤ src.length) :
    memmove b src n = some (src.take n ++ b.drop n) := by
  induction n generalizing b src with
  | zero => simp [memmove]
  | succ n ih =>
    cases b with
    | nil => cases hb
    | cons d b =>
      cases src with
      | nil => cases hsrc
      | cons c src =>
        rw [memmove, ih (Nat.le_of_succ_le_succ hb) (Nat.le_of_succ_le_succ hsrc)]
        rfl

/-- Copying a string behind what is there already. -/
theorem memmoveAt_append (h : t.length ≤ b.length) :
    memmoveAt (s ++ b) s.length (t ++ r) t.length = some (s ++ t ++ b.drop t.length) := by
  rw [memmoveAt, if_pos (by simp), List.drop_left, memmove_eq h (by simp), List.take_left,
    List.take_left]
  simp

theorem store_append {c d : UInt8} : store (s ++ d :: r) s.length c = some (s ++ c :: r) := by
  simp [store]

/-- The bytes of a line are stored one by one, its newline last. -/
theorem getsLoop_line {max : Nat} (hs : ∀ c ∈ s, c ≠ newline ∧ c ≠ cr)
    (hmax : t.length + s.length + 1 < max) (hb : s.length < b.length) :
    getsLoop max (s ++ newline :: r) t.length (t ++ b) =
      some (t.length + s.length + 1, t ++ s ++ newline :: b.drop (s.length + 1), r) := by
  induction s generalizing t b with
  | nil =>
    obtain ⟨d, b, rfl⟩ := List.exists_cons_of_length_pos hb
    simp only [List.length_nil, Nat.add_zero] at hmax
    rw [List.nil_append, getsLoop, if_pos hmax, store_append]
    simp
  | cons c s ih =>
    obtain ⟨d, b, rfl⟩ := List.exists_cons_of_length_pos (Nat.zero_lt_of_lt hb)
    simp only [List.length_cons] at hmax hb
    have hc := hs c List.mem_cons_self
    have hloop := ih (t := t ++ [c]) (b := b) (fun x hx => hs x (List.mem_cons_of_mem c hx))
      (by simp only [List.length_append, List.length_singleton]; omega) (by omega)
    simp only [List.length_append, List.length_singleton, List.append_assoc,
      List.singleton_append] at hloop
    rw [List.cons_append, getsLoop, if_pos (by omega), store_append]
    simp only [Option.bind_eq_bind, Option.bind_some, hc.1, hc.2, or_self, if_false]
    rw [hloop]
    simp only [List.length_cons, List.drop_succ_cons, List.append_assoc, List.cons_append,
      Nat.add_assoc, Nat.add_comm 1]

theorem gets_line {m : Nat} (hs : ∀ c ∈ s, c ≠ newline ∧ c ≠ cr) (hmax : s.length + 1 < m)
    (hb : s.length + 1 < b.length) :
    gets b m (s ++ newline :: r) = some (s ++ newline :: 0 :: b.drop (s.length + 2), r) := by
  have hloop := getsLoop_line (t := []) (r := r) hs (by simpa using hmax) (Nat.lt_of_succ_lt hb)
  obtain ⟨d, l, hd⟩ := List.exists_cons_of_length_pos (l := b.drop (s.length + 1)) (by simp; omega)
  have hl : l = b.drop (s.length + 2) := by rw [← List.tail_drop, hd, List.tail_cons]
  simp only [List.nil_append, List.length_nil, Nat.zero_add] at hloop
  rw [gets, hloop, hd]
  have hstore := store_append (s := s ++ [newline]) (d := d) (r := l) (c := 0)
  simp only [List.length_append, List.length_singleton, List.append_assoc,
    List.singleton_append] at hstore
  rw [hl] at hstore
  simp [hstore, hl]

end Xv6Rework.Ulib
