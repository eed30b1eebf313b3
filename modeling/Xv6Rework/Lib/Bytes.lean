import Mathlib.Data.Fintype.Pi

/-!
# Byte arrays of a fixed size

`Bytes N` is an array of `N` bytes.  Offsets are natural numbers: reading past
the end gives zero and writing past the end does nothing, so that the lemmas
carry a bound only where one is needed.

Three kinds of access are provided: single bytes (`get`, `set`), little-endian
numbers of any width (`getLE`, `setLE`), and runs of bytes (`blit`).  Each has
one lemma for what is read back from where it was written and one for what is
read from elsewhere.
-/

/-- An array of `N` bytes. -/
def Bytes (N : Nat) : Type := Fin N → UInt8

namespace Bytes

variable {N : Nat}

instance : DecidableEq (Bytes N) := inferInstanceAs (DecidableEq (Fin N → UInt8))

/-- All bytes zero. -/
def zero : Bytes N := fun _ => 0

/-- The byte at an offset. -/
def get (b : Bytes N) (i : Nat) : UInt8 := if h : i < N then b ⟨i, h⟩ else 0

/-- Store a byte. -/
def set (b : Bytes N) (i : Nat) (v : UInt8) : Bytes N := fun j => if j.val = i then v else b j

/-- Copy `len` bytes of `src` to offset `off`. -/
def blit (b : Bytes N) (off len : Nat) (src : Nat → UInt8) : Bytes N := fun j =>
  if off ≤ j.val ∧ j.val < off + len then src (j.val - off) else b j

/-- The little-endian number of `k` bytes at an offset. -/
def getLE (b : Bytes N) (off : Nat) : Nat → Nat
  | 0 => 0
  | k + 1 => (b.get off).toNat + 256 * b.getLE (off + 1) k

/-- Store a number as `k` bytes, little-endian. -/
def setLE (b : Bytes N) (off : Nat) : Nat → Nat → Bytes N
  | 0, _ => b
  | k + 1, v => (b.setLE (off + 1) k (v / 256)).set off (UInt8.ofNat v)

/-! ## Single bytes -/

@[ext] theorem ext {b c : Bytes N} (h : ∀ i < N, b.get i = c.get i) : b = c := by
  funext j
  simpa [get, j.isLt] using h j j.isLt

@[simp] theorem get_zero (i : Nat) : (zero : Bytes N).get i = 0 := by simp [get, zero]

theorem get_set (b : Bytes N) (i j : Nat) (v : UInt8) :
    (b.set i v).get j = if j = i ∧ i < N then v else b.get j := by
  unfold get set
  split <;> split <;> grind

@[simp] theorem get_set_self (b : Bytes N) {i : Nat} (v : UInt8) (h : i < N) :
    (b.set i v).get i = v := by
  simp [get_set, h]

theorem get_set_of_ne (b : Bytes N) {i j : Nat} (v : UInt8) (h : j ≠ i) :
    (b.set i v).get j = b.get j := by
  simp [get_set, h]

theorem get_blit (b : Bytes N) (off len : Nat) (src : Nat → UInt8) (j : Nat) :
    (b.blit off len src).get j =
      if off ≤ j ∧ j < off + len ∧ j < N then src (j - off) else b.get j := by
  unfold get blit
  split <;> grind

/-! ## Numbers -/

theorem getLE_lt (b : Bytes N) (off k : Nat) : b.getLE off k < 256 ^ k := by
  induction k generalizing off with
  | zero => simp [getLE]
  | succ k ih =>
    have hb := (b.get off).toNat_lt
    have := ih (off + 1)
    rw [getLE, Nat.pow_succ]
    omega

/-- A number depends on its own bytes only. -/
theorem getLE_congr {b c : Bytes N} {off k : Nat}
    (h : ∀ i, off ≤ i → i < off + k → b.get i = c.get i) : b.getLE off k = c.getLE off k := by
  induction k generalizing off with
  | zero => rfl
  | succ k ih =>
    rw [getLE, getLE, h off (by omega) (by omega), ih fun i h1 h2 => h i (by omega) (by omega)]

@[simp] theorem getLE_zero (off k : Nat) : (zero : Bytes N).getLE off k = 0 := by
  induction k generalizing off with
  | zero => rfl
  | succ k ih => simp [getLE, ih]

/-- Storing a number leaves the other bytes alone. -/
theorem get_setLE_of_disjoint (b : Bytes N) {off k j : Nat} (v : Nat)
    (h : j < off ∨ off + k ≤ j) : (b.setLE off k v).get j = b.get j := by
  induction k generalizing off v with
  | zero => rfl
  | succ k ih => rw [setLE, get_set_of_ne _ _ (by omega), ih _ (by omega)]

/-- Storing a number leaves the numbers beside it alone. -/
theorem getLE_setLE_of_disjoint (b : Bytes N) {off k off' k' : Nat} (v : Nat)
    (h : off' + k' ≤ off ∨ off + k ≤ off') : (b.setLE off k v).getLE off' k' = b.getLE off' k' :=
  getLE_congr fun _ _ _ => get_setLE_of_disjoint b v (by omega)

/-- A number is read back as it was stored, cut to its width. -/
theorem getLE_setLE (b : Bytes N) {off k : Nat} (v : Nat) (h : off + k ≤ N) :
    (b.setLE off k v).getLE off k = v % 256 ^ k := by
  induction k generalizing off v with
  | zero => simp [getLE, Nat.mod_one]
  | succ k ih =>
    have htail : (b.setLE off (k + 1) v).getLE (off + 1) k = v / 256 % 256 ^ k := by
      rw [← ih (v / 256) (show off + 1 + k ≤ N by omega)]
      exact getLE_congr fun i hi _ => get_set_of_ne _ _ (by omega)
    rw [getLE, htail, setLE, get_set_self _ _ (by omega), UInt8.toNat_ofNat', Nat.pow_succ 256,
      Nat.mul_comm (256 ^ k) 256, Nat.mod_mul]

/-! ## Arrays of numbers -/

/-- Store `n` numbers of four bytes each, from an offset on. -/
def setArray (b : Bytes N) (off n : Nat) (f : Nat → Nat) : Bytes N :=
  (List.range n).foldl (fun b i => b.setLE (off + 4 * i) 4 (f i)) b

theorem setArray_succ (b : Bytes N) (off n : Nat) (f : Nat → Nat) :
    b.setArray off (n + 1) f = (b.setArray off n f).setLE (off + 4 * n) 4 (f n) := by
  simp [setArray, List.range_succ]

theorem get_setArray_of_disjoint (b : Bytes N) {off n j : Nat} (f : Nat → Nat)
    (h : j < off ∨ off + 4 * n ≤ j) : (b.setArray off n f).get j = b.get j := by
  induction n with
  | zero => rfl
  | succ n ih => rw [setArray_succ, get_setLE_of_disjoint _ _ (by omega), ih (by omega)]

theorem getLE_setArray_of_disjoint (b : Bytes N) {off n off' k' : Nat} (f : Nat → Nat)
    (h : off' + k' ≤ off ∨ off + 4 * n ≤ off') :
    (b.setArray off n f).getLE off' k' = b.getLE off' k' :=
  getLE_congr fun _ _ _ => get_setArray_of_disjoint b f (by omega)

theorem getLE_setArray (b : Bytes N) {off n i : Nat} (f : Nat → Nat) (hi : i < n)
    (h : off + 4 * n ≤ N) : (b.setArray off n f).getLE (off + 4 * i) 4 = f i % 256 ^ 4 := by
  induction n with
  | zero => omega
  | succ n ih =>
    rw [setArray_succ]
    rcases Nat.lt_succ_iff_lt_or_eq.1 hi with hi | rfl
    · rw [getLE_setLE_of_disjoint _ _ (by omega), ih hi (by omega)]
    · exact getLE_setLE _ _ (by omega)

end Bytes
