import Xv6Rework.Fs.Bio
import Mathlib.Data.List.TakeWhile

/-!
# What lies on the disk

The formats of `kernel/fs/fs.h`: inodes and the free map as they lie in a block,
directory entries as they lie in a file, and the string functions of
`kernel/mm/string.c` that compare and store names.

A `char*` is the memory it points to, as a function from offsets to bytes.
-/

namespace Xv6Rework

/-! ## Inodes -/

/-- `struct dinode`.  The `short`s are kept as the 16 bits they are stored in. -/
structure Dinode where
  type : Nat
  major : Nat
  minor : Nat
  nlink : Nat
  size : Nat
  addrs : Nat → Nat

/-- A `short` from its 16 bits. -/
def toShort (x : Nat) : Int := if x < 2 ^ 15 then x else x - 2 ^ 16

/-- `memset(dip, 0, sizeof(*dip))`. -/
def Dinode.zero : Dinode := ⟨0, 0, 0, 0, 0, fun _ => 0⟩

/-- `(struct dinode *) bp->data + k`. -/
def Dinode.ofBlock (d : Block) (k : Nat) : Dinode where
  type := d.getLE (64 * k) 2
  major := d.getLE (64 * k + 2) 2
  minor := d.getLE (64 * k + 4) 2
  nlink := d.getLE (64 * k + 6) 2
  size := d.getLE (64 * k + 8) 4
  addrs i := if i ≤ NDIRECT then d.getLE (64 * k + 12 + 4 * i) 4 else 0

/-- The stores to the `k`-th inode of a block. -/
def Dinode.store (x : Dinode) (k : Nat) (d : Block) : Block :=
  (((((d.setLE (64 * k) 2 x.type).setLE (64 * k + 2) 2 x.major).setLE (64 * k + 4) 2 x.minor).setLE
    (64 * k + 6) 2 x.nlink).setLE (64 * k + 8) 4 x.size).setArray (64 * k + 12)
    (NDIRECT + 1) x.addrs

/-- The fields fit their types. -/
structure Dinode.Fits (x : Dinode) : Prop where
  type : x.type < 2 ^ 16
  major : x.major < 2 ^ 16
  minor : x.minor < 2 ^ 16
  nlink : x.nlink < 2 ^ 16
  size : x.size < 2 ^ 32
  addrs : ∀ i, x.addrs i < 2 ^ 32
  beyond : ∀ i, NDIRECT < i → x.addrs i = 0

@[ext] theorem Dinode.ext' {x y : Dinode} (h1 : x.type = y.type) (h2 : x.major = y.major)
    (h3 : x.minor = y.minor) (h4 : x.nlink = y.nlink) (h5 : x.size = y.size)
    (h6 : ∀ i, x.addrs i = y.addrs i) : x = y := by
  cases x
  cases y
  simp_all only [Dinode.mk.injEq, true_and]
  exact funext h6

theorem Dinode.fits_zero : Dinode.zero.Fits := by constructor <;> simp [Dinode.zero]

theorem Dinode.ofBlock_zero {k : Nat} : Dinode.ofBlock Bytes.zero k = Dinode.zero := by
  ext <;> simp [Dinode.ofBlock, Dinode.zero]

section

variable {x : Dinode} {k k' : Nat} {d : Block}

/-- Storing an inode leaves the bytes outside it alone. -/
theorem Dinode.get_store {j : Nat} (hj : j < 64 * k ∨ 64 * k + 64 ≤ j) :
    (x.store k d).get j = d.get j := by
  have hnd : NDIRECT = 12 := rfl
  rw [Dinode.store, Bytes.get_setArray_of_disjoint _ _ (by omega)]
  iterate 5 rw [Bytes.get_setLE_of_disjoint _ _ (by omega)]

/-- An inode is read back as it was stored. -/
theorem Dinode.ofBlock_store (hx : x.Fits) (hk : k < IPB) : Dinode.ofBlock (x.store k d) k = x := by
  have hk : k < 8 := hk
  have hb : BSIZE = 512 := rfl
  have hnd : NDIRECT = 12 := rfl
  have hp : 256 ^ 2 = 2 ^ 16 := by decide
  have hp' : 256 ^ 4 = 2 ^ 32 := by decide
  ext i
  case h6 =>
    simp only [Dinode.ofBlock, Dinode.store]
    split
    case isTrue hi =>
      rw [Bytes.getLE_setArray _ _ (by omega) (by omega), hp', Nat.mod_eq_of_lt (hx.addrs i)]
    case isFalse hi => rw [hx.beyond i (by omega)]
  all_goals
    simp only [Dinode.ofBlock, Dinode.store]
    rw [Bytes.getLE_setArray_of_disjoint _ _ (by omega)]
    repeat rw [Bytes.getLE_setLE_of_disjoint _ _ (by omega)]
    rw [Bytes.getLE_setLE _ _ (by omega)]
  · rw [hp, Nat.mod_eq_of_lt hx.type]
  · rw [hp, Nat.mod_eq_of_lt hx.major]
  · rw [hp, Nat.mod_eq_of_lt hx.minor]
  · rw [hp, Nat.mod_eq_of_lt hx.nlink]
  · rw [hp', Nat.mod_eq_of_lt hx.size]

/-- Storing an inode leaves the others of the block alone. -/
theorem Dinode.ofBlock_store_of_ne (h : k' ≠ k) :
    Dinode.ofBlock (x.store k d) k' = Dinode.ofBlock d k' := by
  have hget : ∀ off n, 64 * k' ≤ off → off + n ≤ 64 * k' + 64 →
      (x.store k d).getLE off n = d.getLE off n := fun off n h1 h2 =>
    Bytes.getLE_congr fun i _ _ => Dinode.get_store (by omega)
  have hnd : NDIRECT = 12 := rfl
  ext i
  case h6 =>
    simp only [Dinode.ofBlock]
    split
    · exact hget _ _ (by omega) (by omega)
    · rfl
  all_goals exact hget _ _ (by omega) (by omega)

end

/-! ## The free map -/

/-- `1 << (bi % 8)`. -/
def bitMask (bi : Nat) : UInt8 := 1 <<< UInt8.ofNat (bi % 8)

/-- `(bp->data[bi/8] & m) != 0`. -/
def bitSet (d : Block) (bi : Nat) : Bool := d.get (bi / 8) &&& bitMask bi != 0

/-- `bp->data[bi/8] |= m`. -/
def setBit (d : Block) (bi : Nat) : Block := d.set (bi / 8) (d.get (bi / 8) ||| bitMask bi)

/-- `bp->data[bi/8] &= ~m`. -/
def clearBit (d : Block) (bi : Nat) : Block := d.set (bi / 8) (d.get (bi / 8) &&& ~~~bitMask bi)

section

variable {d : Block} {i j : Nat}

/-- The bit operations on one byte. -/
theorem byte_bits : ∀ n < 256, ∀ i < 8, ∀ j < 8,
    ((UInt8.ofNat n ||| bitMask i) &&& bitMask j != 0) =
      (decide (i = j) || (UInt8.ofNat n &&& bitMask j != 0)) ∧
    ((UInt8.ofNat n &&& ~~~bitMask i) &&& bitMask j != 0) =
      (!decide (i = j) && (UInt8.ofNat n &&& bitMask j != 0)) := by
  decide +kernel

theorem bitMask_mod (i : Nat) : bitMask (i % 8) = bitMask i := by
  rw [bitMask, bitMask, Nat.mod_mod]

theorem byte_bits' (x : UInt8) (i j : Nat) :
    ((x ||| bitMask i) &&& bitMask j != 0) = (decide (i % 8 = j % 8) || (x &&& bitMask j != 0)) ∧
    ((x &&& ~~~bitMask i) &&& bitMask j != 0) =
      (!decide (i % 8 = j % 8) && (x &&& bitMask j != 0)) := by
  have h := byte_bits x.toNat x.toNat_lt (i % 8) (Nat.mod_lt _ (by decide)) (j % 8)
    (Nat.mod_lt _ (by decide))
  rwa [UInt8.ofNat_toNat, bitMask_mod, bitMask_mod] at h

/-- Marking a block used changes its own bit only. -/
theorem bitSet_setBit (hi : i < BPB) : bitSet (setBit d i) j = (decide (j = i) || bitSet d j) := by
  have hi : i / 8 < BSIZE := Nat.div_lt_of_lt_mul (Nat.mul_comm 512 8 ▸ hi)
  unfold bitSet setBit
  by_cases hj : j / 8 = i / 8
  · rw [hj, Bytes.get_set_self _ _ hi, (byte_bits' _ i j).1]
    congr 1
    exact decide_eq_decide.2 (by omega)
  · rw [Bytes.get_set_of_ne _ _ hj, decide_eq_false (by rintro rfl; exact hj rfl), Bool.false_or]

end

/-! ## Names -/

/-- The memory that holds a C string and a terminating zero. -/
def cstr (l : List UInt8) : Nat → UInt8 := fun i => l.getD i 0

/-- `strncmp(p + i, q + i, n)`, `string.c`. -/
def strncmp (p q : Nat → UInt8) (i : Nat) : Nat → Int
  | 0 => 0
  | n + 1 => if p i ≠ 0 ∧ p i = q i then strncmp p q (i + 1) n else (p i).toNat - (q i).toNat

/-- The `n` bytes that `strncpy(s, t + i, n)` stores, `string.c`. -/
def strncpy (t : Nat → UInt8) (i : Nat) : Nat → List UInt8
  | 0 => []
  | n + 1 => if t i = 0 then List.replicate (n + 1) 0 else t i :: strncpy t (i + 1) n

/-- `namecmp`. -/
def namecmp (s t : Nat → UInt8) : Int := strncmp s t 0 DIRSIZ

/-- `struct dirent`. -/
structure Dirent where
  inum : Nat
  name : Nat → UInt8

/-- A directory entry from its bytes. -/
def Dirent.ofBytes (l : List UInt8) : Dirent where
  inum := (l.getD 0 0).toNat + 256 * (l.getD 1 0).toNat
  name i := l.getD (2 + i) 0

/-- The bytes of the entry that `dirlink` writes. -/
def direntBytes (inum : Nat) (name : Nat → UInt8) : List UInt8 :=
  UInt8.ofNat inum :: UInt8.ofNat (inum / 256) :: strncpy name 0 DIRSIZ

/-! ## Paths -/

/-- `'/'`. -/
def slash : UInt8 := 47

/-- `'.'`. -/
def dot : UInt8 := 46

/-- `skipelem`: the next element, cut to `DIRSIZ` bytes, and what follows it. -/
def skipelem (path : List UInt8) : Option (List UInt8 × List UInt8) :=
  match path.dropWhile (· == slash) with
  | [] => none
  | s => some ((s.takeWhile (· != slash)).take DIRSIZ,
      (s.dropWhile (· != slash)).dropWhile (· == slash))

/-- `skipelem` makes progress. -/
theorem length_skipelem {path name rest : List UInt8} (h : skipelem path = some (name, rest)) :
    rest.length < path.length := by
  unfold skipelem at h
  split at h
  · cases h
  · next s hs =>
    cases hp : path.dropWhile (· == slash) with
    | nil => exact absurd hp hs
    | cons c s =>
      simp only [hp, Option.some.injEq, Prod.mk.injEq] at h
      have hc : (c == slash) = false := by
        have := List.head_dropWhile_not (p := (· == slash)) (l := path) (by rw [hp]; simp)
        simpa [hp] using this
      have h1 := List.length_dropWhile_le (· == slash) path
      rw [hp] at h1
      have h2 := List.length_dropWhile_le (· == slash) ((c :: s).dropWhile (· != slash))
      have h3 : ((c :: s).dropWhile (· != slash)).length ≤ s.length := by
        rw [List.dropWhile_cons, if_pos (by simpa using hc)]
        exact List.length_dropWhile_le ..
      rw [← h.2]
      simp only [List.length_cons] at h1
      omega

end Xv6Rework
